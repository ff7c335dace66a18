import Mathlib.Data.List.Perm.Basic
import SmpNostd.Lib.Machine
import SmpNostd.Lib.Bits

/-!
Sending an interprocessor interrupt (`send_ipi` in `apic.rs`), with interrupts
enabled.

In x2APIC mode an IPI is sent by one write to a 64-bit MSR. In xAPIC mode the
destination is written first, into the high word of the interrupt command
register, and a write to its low word then sends the IPI to whatever destination
the register holds. An interrupt handler that runs between the two writes and
sends an IPI of its own leaves its own destination there.

The calls that are in progress on the core are a stack: a handler runs to its end
before what it has interrupted goes on. Every access to the APIC is one step, and
between any two of them another call may be put on the stack.
-/

namespace SmpNostd.LocalApic

open Machine

/-- ICR low, the offset of its register. -/
def regIcrLow : BitVec 32 := 0x300

/-- ICR high. -/
def regIcrHigh : BitVec 32 := 0x310

/-- The first MSR of the x2APIC. -/
def x2apicMsrBase : BitVec 32 := 0x800

/-! ### The device -/

/-- The two words of the interrupt command register. -/
structure Icr where
  low : BitVec 32
  high : BitVec 32
  deriving DecidableEq, Repr

/-- An IPI: the destination it is sent to, and the command. Also what a call
of `send_ipi` asks for. -/
structure Ipi where
  dest : BitVec 32
  flags : BitVec 32
  deriving DecidableEq, Repr

/-- The delivery status bit of the low word. -/
def deliveryStatus : BitVec 32 := 1 <<< 12

/-- What a read of the low word gives. Whether the last IPI is still to be
accepted is up to the device. -/
def Icr.readLow (icr : Icr) (busy : Bool) : BitVec 32 :=
  if busy then icr.low ||| deliveryStatus else icr.low &&& ~~~deliveryStatus

/-- A write to a register of the xAPIC. The low word sends an IPI to the
destination in bits 24 to 31 of the high word. -/
def Icr.writeReg (icr : Icr) (offset value : BitVec 32) : Icr × Option Ipi :=
  if offset = regIcrLow then ({ icr with low := value }, some ⟨icr.high >>> 24, value⟩)
  else if offset = regIcrHigh then ({ icr with high := value }, none)
  else (icr, none)

/-- A write to an MSR of the x2APIC. The whole command register is one MSR, and
the destination is its high word. -/
def Icr.wrmsr (icr : Icr) (msr : BitVec 32) (value : BitVec 64) : Icr × Option Ipi :=
  if msr = 0x830 then
    let icr : Icr := ⟨value.setWidth 32, (value >>> 32).setWidth 32⟩
    (icr, some ⟨icr.high, icr.low⟩)
  else (icr, none)

/-! ### The driver -/

/-- The access that a call of `send_ipi` makes next. -/
inductive Pc
  /-- The read in `wait_icr_idle`. -/
  | waitIcrIdle
  | writeHigh
  | writeLow
  /-- The write of the MSR. -/
  | writeMsr
  deriving DecidableEq, Repr

/-- A call in progress. `interruptedBy` is the destination of the last call that
handlers have made since it wrote the high word; it is there to speak about, and
the code knows nothing of it. -/
structure Frame where
  ipi : Ipi
  pc : Pc
  interruptedBy : Option (BitVec 32)
  deriving DecidableEq, Repr

/-- The IPI that a call asked for and the one that the device has sent. -/
structure Sent where
  asked : Ipi
  emitted : Ipi
  deriving DecidableEq, Repr

structure State where
  icr : Icr
  stack : List Frame
  /-- The calls made so far. -/
  calls : List Ipi
  /-- What the device has sent, and for which calls. -/
  sent : List Sent
  deriving DecidableEq, Repr

inductive Label
  /-- What runs on the core, a handler if a call is in progress, calls
  `send_ipi`. -/
  | call (ipi : Ipi)
  /-- The call in progress makes its next access. `busy` is the delivery status
  that a read finds. -/
  | access (busy : Bool)
  deriving DecidableEq, Repr

/-- `send_ipi` up to its first access. -/
def start (x2apic : Bool) (ipi : Ipi) : Frame where
  ipi := ipi
  pc := if x2apic then .writeMsr else .waitIcrIdle
  interruptedBy := none

/-- A call for `ipi` has made its last access, and returns to what it has
interrupted. -/
def State.finish (s : State) (ipi : Ipi) (written : Icr × Option Ipi) (frames : List Frame) :
    State where
  icr := written.1
  stack := frames.modifyHead fun frame => { frame with interruptedBy := some ipi.dest }
  calls := s.calls
  sent := s.sent ++ written.2.toList.map fun emitted => ⟨ipi, emitted⟩

/-- The next access of the call on top of the stack. -/
def access (s : State) (busy : Bool) : List Frame → Option State
  | [] => none
  | frame :: frames =>
      match frame.pc with
      | .waitIcrIdle =>
          -- the loop reads until the bit is clear
          if s.icr.readLow busy &&& deliveryStatus = 0 then
            some { s with stack := { frame with pc := .writeHigh } :: frames }
          else some s
      | .writeHigh =>
          let written := s.icr.writeReg regIcrHigh (frame.ipi.dest <<< 24)
          some { s with
            icr := written.1
            stack := { frame with pc := .writeLow, interruptedBy := none } :: frames }
      | .writeLow => some (s.finish frame.ipi (s.icr.writeReg regIcrLow frame.ipi.flags) frames)
      | .writeMsr =>
          let icrVal := frame.ipi.dest.setWidth 64 <<< 32 ||| frame.ipi.flags.setWidth 64
          some (s.finish frame.ipi (s.icr.wrmsr (x2apicMsrBase + (regIcrLow >>> 4)) icrVal) frames)

def step (x2apic : Bool) (s : State) : Label → Option State
  | .call ipi => some { s with stack := start x2apic ipi :: s.stack, calls := s.calls ++ [ipi] }
  | .access busy => access s busy s.stack

/-- No call is in progress and none has been made. -/
def init (icr : Icr) : State where
  icr := icr
  stack := []
  calls := []
  sent := []

/-- One IPI has been sent for each call that is no longer in progress, and it is
the one that the call asked for. -/
def State.OnePerCall (s : State) : Prop :=
  (s.sent.map Sent.asked ++ s.stack.map Frame.ipi).Perm s.calls ∧
    ∀ x ∈ s.sent, x.emitted = x.asked

/-- If the step is the write of the low word of a call, then the last call that
handlers have made since it wrote the high word, if any, had the same
destination. -/
def Undisturbed (s : State) : Label → Prop
  | .call _ => True
  | .access _ => ∀ frame ∈ s.stack.head?, frame.pc = .writeLow →
      ∀ dest ∈ frame.interruptedBy, dest = frame.ipi.dest

/-! ### What a step can do -/

/-- What a step can do, with the writes to the device worked out. -/
inductive Step (x2apic : Bool) (s : State) : Label → State → Prop
  | call (ipi : Ipi) : Step x2apic s (.call ipi)
      { s with stack := start x2apic ipi :: s.stack, calls := s.calls ++ [ipi] }
  | poll {busy : Bool} {frame : Frame} {frames : List Frame} (hstack : s.stack = frame :: frames)
      (hpc : frame.pc = .waitIcrIdle) : Step x2apic s (.access busy) s
  | idle {busy : Bool} {frame : Frame} {frames : List Frame} (hstack : s.stack = frame :: frames)
      (hpc : frame.pc = .waitIcrIdle) : Step x2apic s (.access busy)
        { s with stack := { frame with pc := .writeHigh } :: frames }
  | high {busy : Bool} {frame : Frame} {frames : List Frame} (hstack : s.stack = frame :: frames)
      (hpc : frame.pc = .writeHigh) : Step x2apic s (.access busy)
        { s with
          icr := { s.icr with high := frame.ipi.dest <<< 24 }
          stack := { frame with pc := .writeLow, interruptedBy := none } :: frames }
  | low {busy : Bool} {frame : Frame} {frames : List Frame} (hstack : s.stack = frame :: frames)
      (hpc : frame.pc = .writeLow) : Step x2apic s (.access busy)
        (s.finish frame.ipi ({ s.icr with low := frame.ipi.flags },
          some ⟨s.icr.high >>> 24, frame.ipi.flags⟩) frames)
  | msr {busy : Bool} {frame : Frame} {frames : List Frame} (hstack : s.stack = frame :: frames)
      (hpc : frame.pc = .writeMsr) : Step x2apic s (.access busy)
        (s.finish frame.ipi (⟨frame.ipi.flags, frame.ipi.dest⟩, some frame.ipi) frames)

/-- The write of the MSR sends what was asked for. -/
theorem Icr.wrmsr_icr (icr : Icr) (ipi : Ipi) :
    icr.wrmsr (x2apicMsrBase + (regIcrLow >>> 4))
      (ipi.dest.setWidth 64 <<< 32 ||| ipi.flags.setWidth 64) =
        (⟨ipi.flags, ipi.dest⟩, some ipi) := by
  have hmsr : x2apicMsrBase + (regIcrLow >>> 4) = 0x830 := by decide
  have hlow := Bits.setWidth_join (v := 64) (by decide) ipi.flags ipi.dest
  have hhigh := Bits.setWidth_ushiftRight_join (v := 64) (by decide) ipi.flags ipi.dest
  rw [hmsr, BitVec.or_comm, Icr.wrmsr, if_pos rfl]
  simp only [hlow, hhigh]

variable {x2apic : Bool} {s t : State} {l : Label}

theorem step_cases (h : step x2apic s l = some t) : Step x2apic s l t := by
  cases l with
  | call ipi =>
      obtain rfl := Option.some.inj h
      exact .call ipi
  | access busy =>
      obtain ⟨icr, stack, calls, sent⟩ := s
      cases stack with
      | nil => cases h
      | cons frame frames =>
          cases hpc : frame.pc with
          | waitIcrIdle =>
              simp only [step, access, hpc] at h
              split at h
              · obtain rfl := Option.some.inj h
                exact .idle rfl hpc
              · obtain rfl := Option.some.inj h
                exact .poll rfl hpc
          | writeHigh =>
              simp only [step, access, hpc] at h
              obtain rfl := Option.some.inj h
              exact .high rfl hpc
          | writeLow =>
              simp only [step, access, hpc] at h
              obtain rfl := Option.some.inj h
              exact .low rfl hpc
          | writeMsr =>
              simp only [step, access, hpc, Icr.wrmsr_icr] at h
              obtain rfl := Option.some.inj h
              exact .msr rfl hpc

/-! ### One IPI for each call -/

theorem State.map_ipi_finish (s : State) (ipi : Ipi) (written : Icr × Option Ipi)
    (frames : List Frame) : (s.finish ipi written frames).stack.map Frame.ipi =
      frames.map Frame.ipi := by
  cases frames <;> rfl

/-- A call is done or in progress. -/
theorem Step.accounted (h : Step x2apic s l t)
    (hs : (s.sent.map Sent.asked ++ s.stack.map Frame.ipi).Perm s.calls) :
    (t.sent.map Sent.asked ++ t.stack.map Frame.ipi).Perm t.calls := by
  cases h with
  | call ipi =>
      refine List.perm_middle.trans ?_
      exact (hs.cons ipi).trans (List.perm_append_singleton ipi s.calls).symm
  | poll => exact hs
  | idle hstack | high hstack =>
      rw [hstack] at hs
      exact hs
  | low hstack | msr hstack =>
      rw [State.map_ipi_finish]
      rw [hstack] at hs
      simpa [State.finish] using hs

theorem Step.sent_subset (h : Step x2apic s l t) : s.sent ⊆ t.sent := by
  cases h with
  | call | poll | idle | high => exact List.Subset.refl _
  | low | msr => exact List.subset_append_left _ _

theorem run_sent_subset {as : List Label} (hrun : run (step x2apic) s as = some t) :
    s.sent ⊆ t.sent :=
  run_invariant (I := fun m => s.sent ⊆ m.sent)
    (fun _ _ _ hm hstep => List.Subset.trans hm (step_cases hstep).sent_subset)
    (List.Subset.refl _) hrun

/-! ### With the MSR -/

/-- All calls are about to write the MSR, and all IPIs sent so far are right. -/
structure MsrInv (s : State) : Prop where
  pcs : ∀ frame ∈ s.stack, frame.pc = .writeMsr
  right : ∀ x ∈ s.sent, x.emitted = x.asked

theorem MsrInv.step (hs : MsrInv s) (hstep : step true s l = some t) : MsrInv t := by
  cases step_cases hstep with
  | call ipi => exact ⟨List.forall_mem_cons.mpr ⟨rfl, hs.pcs⟩, hs.right⟩
  | poll => exact hs
  | idle hstack hpc | high hstack hpc | low hstack hpc =>
      have hmsr := hs.pcs _ (hstack ▸ List.mem_cons_self)
      rw [hpc] at hmsr
      cases hmsr
  | @msr _ frame frames hstack hpc =>
      have hpcs := List.forall_mem_cons.mp (hstack ▸ hs.pcs)
      constructor
      · cases frames with
        | nil => nofun
        | cons g frames => exact List.forall_mem_cons.mpr (List.forall_mem_cons.mp hpcs.2)
      · intro x hx
        rcases List.mem_append.mp hx with hx | hx
        · exact hs.right x hx
        · obtain rfl := List.mem_singleton.mp hx
          rfl

/-! ### With the two words -/

/-- The destination that the high word has when the call writes the low word. -/
def Frame.current (frame : Frame) : BitVec 32 := frame.interruptedBy.getD frame.ipi.dest

structure XapicInv (s : State) : Prop where
  pcs : ∀ frame ∈ s.stack, frame.pc ≠ .writeMsr
  dests : ∀ frame ∈ s.stack, frame.ipi.dest < 256
  high : ∀ frame ∈ s.stack.head?, frame.pc = .writeLow →
    frame.current < 256 ∧ s.icr.high = frame.current <<< 24

theorem shiftLeft_ushiftRight_dest {dest : BitVec 32} (h : dest < 256) :
    (dest <<< 24) >>> 24 = dest := by
  have hlt : dest.toNat < 256 := h
  apply BitVec.eq_of_toNat_eq
  rw [BitVec.toNat_ushiftRight, BitVec.toNat_shiftLeft, Nat.shiftLeft_eq,
    Nat.mod_eq_of_lt (by omega), Nat.shiftRight_eq_div_pow,
    Nat.mul_div_cancel _ (by decide)]

theorem Frame.current_eq_iff (frame : Frame) :
    frame.current = frame.ipi.dest ↔ ∀ dest ∈ frame.interruptedBy, dest = frame.ipi.dest := by
  rw [current]
  cases frame.interruptedBy <;> simp

/-- The IPI that the write of the low word sends is the right one exactly if the
high word has not been changed, or changed to the same. -/
theorem XapicInv.emitted_eq_iff (hs : XapicInv s) {frame : Frame} {frames : List Frame}
    (hstack : s.stack = frame :: frames) (hpc : frame.pc = .writeLow) (busy : Bool) :
    (⟨s.icr.high >>> 24, frame.ipi.flags⟩ : Ipi) = frame.ipi ↔ Undisturbed s (.access busy) := by
  obtain ⟨hlt, hhigh⟩ := hs.high frame (by rw [hstack]; rfl) hpc
  have hdest : (⟨s.icr.high >>> 24, frame.ipi.flags⟩ : Ipi) = frame.ipi ↔
      frame.current = frame.ipi.dest := by
    rw [hhigh, shiftLeft_ushiftRight_dest hlt]
    exact ⟨fun h => congrArg Ipi.dest h, fun h => by rw [h]⟩
  have hundisturbed : Undisturbed s (.access busy) ↔
      ∀ dest ∈ frame.interruptedBy, dest = frame.ipi.dest := by
    simp only [Undisturbed, hstack, List.head?_cons, Option.mem_def, Option.some.injEq,
      forall_eq', hpc, forall_const]
  rw [hdest, hundisturbed, frame.current_eq_iff]

theorem XapicInv.step (hs : XapicInv s) (hdest : ∀ ipi, l = .call ipi → ipi.dest < 256)
    (hstep : step false s l = some t) (hq : Undisturbed s l) : XapicInv t := by
  cases step_cases hstep with
  | call ipi =>
      refine ⟨List.forall_mem_cons.mpr ⟨nofun, hs.pcs⟩,
        List.forall_mem_cons.mpr ⟨hdest ipi rfl, hs.dests⟩, ?_⟩
      intro frame hframe hpc
      obtain rfl := Option.some.inj hframe
      cases hpc
  | poll => exact hs
  | idle hstack =>
      have hpcs := List.forall_mem_cons.mp (hstack ▸ hs.pcs)
      have hdests := List.forall_mem_cons.mp (hstack ▸ hs.dests)
      refine ⟨List.forall_mem_cons.mpr ⟨nofun, hpcs.2⟩, List.forall_mem_cons.mpr hdests, ?_⟩
      intro frame hframe hpc
      obtain rfl := Option.some.inj hframe
      cases hpc
  | high hstack =>
      have hpcs := List.forall_mem_cons.mp (hstack ▸ hs.pcs)
      have hdests := List.forall_mem_cons.mp (hstack ▸ hs.dests)
      refine ⟨List.forall_mem_cons.mpr ⟨nofun, hpcs.2⟩, List.forall_mem_cons.mpr hdests, ?_⟩
      intro frame hframe _
      obtain rfl := Option.some.inj hframe
      exact ⟨hdests.1, rfl⟩
  | msr hstack hpc => exact absurd hpc (hs.pcs _ (hstack ▸ List.mem_cons_self))
  | @low busy frame frames hstack hpc =>
      have hpcs := List.forall_mem_cons.mp (hstack ▸ hs.pcs)
      have hdests := List.forall_mem_cons.mp (hstack ▸ hs.dests)
      -- what is interrupted finds the destination of this call in the high word
      have hhigh : s.icr.high = frame.ipi.dest <<< 24 := by
        have hcurrent : frame.current = frame.ipi.dest :=
          frame.current_eq_iff.mpr (hq frame (by rw [hstack]; rfl) hpc)
        rw [(hs.high frame (by rw [hstack]; rfl) hpc).2, hcurrent]
      cases frames with
      | nil => exact ⟨nofun, nofun, nofun⟩
      | cons g frames =>
          refine ⟨List.forall_mem_cons.mpr (List.forall_mem_cons.mp hpcs.2),
            List.forall_mem_cons.mpr (List.forall_mem_cons.mp hdests.2), ?_⟩
          intro g' hg' _
          obtain rfl := Option.some.inj hg'
          exact ⟨hdests.1, hhigh⟩

/-- Along a run, all IPIs are right exactly if no call is disturbed. -/
theorem XapicInv.run {as : List Label} (hs : XapicInv s)
    (hright : ∀ x ∈ s.sent, x.emitted = x.asked)
    (hdest : ∀ ipi, .call ipi ∈ as → ipi.dest < 256)
    (hrun : Machine.run (LocalApic.step false) s as = some t) :
    (∀ x ∈ t.sent, x.emitted = x.asked) ↔
      StepsMeet (LocalApic.step false) Undisturbed s as := by
  induction as generalizing s with
  | nil =>
      obtain rfl := Option.some.inj hrun
      exact ⟨fun _ => trivial, fun _ => hright⟩
  | cons l as ih =>
      obtain ⟨m, hm, hrest⟩ := run_cons_eq_some.mp hrun
      rw [stepsMeet_cons hm]
      have hhead : ∀ ipi, l = .call ipi → ipi.dest < 256 :=
        fun ipi heq => hdest ipi (heq ▸ List.mem_cons_self)
      have htail : ∀ ipi, .call ipi ∈ as → ipi.dest < 256 :=
        fun ipi hmem => hdest ipi (List.mem_cons_of_mem _ hmem)
      -- a step that disturbs no call leads to a state like the first one
      have hgo : Undisturbed s l → (∀ x ∈ m.sent, x.emitted = x.asked) →
          ((∀ x ∈ t.sent, x.emitted = x.asked) ↔
            Undisturbed s l ∧ StepsMeet (LocalApic.step false) Undisturbed m as) := by
        intro hq hsent
        rw [ih (hs.step hhead hm hq) hsent htail hrest]
        exact (and_iff_right hq).symm
      cases step_cases hm with
      | call ipi => exact hgo trivial hright
      | poll hstack hpc | idle hstack hpc | high hstack hpc =>
          refine hgo (fun frame hframe hlow => ?_) hright
          rw [hstack] at hframe
          obtain rfl := Option.some.inj hframe
          rw [hpc] at hlow
          cases hlow
      | msr hstack hpc => exact absurd hpc (hs.pcs _ (hstack ▸ List.mem_cons_self))
      | @low busy frame frames hstack hpc =>
          have hiff := hs.emitted_eq_iff hstack hpc busy
          by_cases hq : Undisturbed s (.access busy)
          · refine hgo hq fun x hx => ?_
            rcases List.mem_append.mp hx with hx | hx
            · exact hright x hx
            · obtain rfl := List.mem_singleton.mp hx
              exact hiff.mpr hq
          · refine iff_of_false (fun hall => hq (hiff.mp ?_)) fun h => hq h.1
            exact hall _ (run_sent_subset hrest
              (List.mem_append_right _ (List.mem_singleton.mpr rfl)))

/-- **Which IPIs are misdirected.** In every run of calls to destinations below
256, nested in whatever way and to any depth, one IPI is sent for each call and
is the one that was asked for, exactly if the APIC is in x2APIC mode or each
call, when it writes the low word, has not been interrupted since it wrote the
high word by calls the last of which had another destination. -/
theorem one_ipi_per_call_iff (x2apic : Bool) (icr : Icr) (as : List Label) (s : State)
    (hdest : ∀ ipi, .call ipi ∈ as → ipi.dest < 256)
    (hrun : run (step x2apic) (init icr) as = some s) :
    s.OnePerCall ↔
      x2apic = true ∨ StepsMeet (step x2apic) Undisturbed (init icr) as := by
  have haccounted : (s.sent.map Sent.asked ++ s.stack.map Frame.ipi).Perm s.calls :=
    run_invariant (I := fun m : State =>
        (m.sent.map Sent.asked ++ m.stack.map Frame.ipi).Perm m.calls)
      (fun _ _ _ hm hstep => (step_cases hstep).accounted hm) (List.Perm.refl _) hrun
  rw [State.OnePerCall, and_iff_right haccounted]
  cases x2apic with
  | true =>
      have hfirst : MsrInv (init icr) := ⟨nofun, nofun⟩
      have hinv : MsrInv s := run_invariant (fun _ _ _ hm hstep => hm.step hstep) hfirst hrun
      exact ⟨fun _ => .inl rfl, fun _ => hinv.right⟩
  | false =>
      have hfirst : XapicInv (init icr) := ⟨nofun, nofun, nofun⟩
      rw [hfirst.run nofun hdest hrun]
      simp

/-- One IPI is sent to APIC 1, and between its two writes a handler sends
another, to the APIC `dest`. -/
def nested (dest : BitVec 32) : List Label :=
  [.call ⟨1, 0x40⟩, .access true, .access false, .access false,
    .call ⟨dest, 0x41⟩, .access false, .access false, .access false,
    .access false]

/-- The handler sends to the same APIC. -/
theorem one_ipi_per_call_iff_same_dest :
    ∃ s, run (step false) (init ⟨0, 0⟩) (nested 1) = some s ∧ s.stack = [] ∧ s.OnePerCall := by
  refine ⟨_, rfl, rfl, (one_ipi_per_call_iff false ⟨0, 0⟩ (nested 1) _ ?_ rfl).mpr (.inr ?_)⟩
  · simp [nested]
  · simp [nested, StepsMeet, Undisturbed, step, access, start, init, State.finish, Icr.readLow,
      Icr.writeReg, deliveryStatus, regIcrLow, regIcrHigh]

/-- The handler sends to APIC 2, and so both IPIs are sent to it. -/
theorem nested_ipi_misdirects :
    ∃ s, run (step false) (init ⟨0, 0⟩) (nested 2) = some s ∧ s.stack = [] ∧
      s.calls = [⟨1, 0x40⟩, ⟨2, 0x41⟩] ∧ s.sent.map Sent.emitted = [⟨2, 0x41⟩, ⟨2, 0x40⟩] ∧
      ¬ (s.sent.map Sent.emitted).Perm s.calls ∧ ¬ s.OnePerCall := by
  refine ⟨_, rfl, rfl, rfl, by decide, by decide, fun h => ?_⟩
  have hright := h.2 ⟨⟨1, 0x40⟩, ⟨2, 0x40⟩⟩ (by decide)
  exact absurd hright (by decide)

end SmpNostd.LocalApic
