import SmpNostd.Apic.Ipi
import SmpNostd.Boot.Controller
import SmpNostd.Boot.Registration

/-!
The controller at run time: its state, and the IPIs it sends (`ipi_send` in
`driver.rs`).

The controller never switches its local APIC to x2APIC mode, and an APIC id is
read from the top byte of a register, so an id that a core has been registered
with fits in the field that `send_ipi` writes it to.
-/

namespace SmpNostd

open Machine LocalApic

/-! ### An IPI and what it says -/

namespace LocalApic

/-- `ICR_FIXED`, the delivery mode. -/
def deliveryFixed : BitVec 3 := 0b000

/-- `ICR_NMI`, the delivery mode. -/
def deliveryNmi : BitVec 3 := 0b100

/-- Bits 8 to 10 of the command. -/
def Ipi.deliveryMode (ipi : Ipi) : BitVec 3 := ipi.flags.extractLsb' 8 3

def Ipi.vector (ipi : Ipi) : BitVec 8 := ipi.flags.setWidth 8

/-- The id in the ID register of an xAPIC. -/
def id (raw : BitVec 32) : BitVec 32 := raw >>> 24

/-- `send_ipi` in xAPIC mode, when nothing interrupts it: the command register it
leaves, and what is sent. -/
def sendIpi (icr : Icr) (ipi : Ipi) : Icr × List Ipi :=
  let high := icr.writeReg regIcrHigh (ipi.dest <<< 24)
  let low := high.1.writeReg regIcrLow ipi.flags
  (low.1, high.2.toList ++ low.2.toList)

theorem id_lt (raw : BitVec 32) : id raw < 256 := by
  rw [BitVec.lt_def, id, BitVec.toNat_ushiftRight, Nat.shiftRight_eq_div_pow]
  have hlt := raw.isLt
  simp only [BitVec.ofNat_eq_ofNat, BitVec.toNat_ofNat]
  omega

theorem Icr.writeReg_high (icr : Icr) (value : BitVec 32) :
    icr.writeReg regIcrHigh value = ({ icr with high := value }, none) := rfl

/-- What is sent goes to the APIC that was asked for. -/
theorem sendIpi_of_lt (icr : Icr) {ipi : Ipi} (h : ipi.dest < 256) :
    sendIpi icr ipi = (⟨ipi.flags, ipi.dest <<< 24⟩, [ipi]) := by
  show (_, [Ipi.mk ((ipi.dest <<< 24) >>> 24) ipi.flags]) = _
  rw [shiftLeft_ushiftRight_dest h]
  rfl

/-- The loop of `wait_icr_idle`, as long as the last IPI is not accepted. -/
theorem run_busy (n : ℕ) {s : State} {frame : Frame} (hstack : s.stack = [frame])
    (hpc : frame.pc = .waitIcrIdle) :
    run (step false) s (List.replicate n (.access true)) = some s := by
  have hbusy : (s.icr.low ||| deliveryStatus) &&& deliveryStatus ≠ 0 := by
    intro hzero
    have hbit := congrArg (BitVec.getLsbD · 12) hzero
    simp [deliveryStatus] at hbit
  induction n with
  | zero => rfl
  | succ n ih =>
      have hpoll : step false s (.access true) = some s := by
        simp only [step, access, hstack, hpc, Icr.readLow, if_true, if_neg hbusy]
      rw [List.replicate_succ, run_cons, hpoll, Option.bind_some, ih]

/-- `sendIpi` is what a call of `send_ipi` does that is run alone, however long
it has to wait. -/
theorem run_sendIpi (s : State) (hstack : s.stack = []) (ipi : Ipi) (n : ℕ) :
    run (step false) s (.call ipi ::
        (List.replicate n (.access true) ++ List.replicate 3 (.access false))) =
      some { s with
        icr := (sendIpi s.icr ipi).1
        calls := s.calls ++ [ipi]
        sent := s.sent ++ (sendIpi s.icr ipi).2.map fun emitted => ⟨ipi, emitted⟩ } := by
  have hcall : step false s (.call ipi) =
      some { s with stack := [start false ipi], calls := s.calls ++ [ipi] } := by
    simp [step, hstack]
  rw [run_cons, hcall, Option.bind_some, run_append, run_busy n rfl rfl, Option.bind_some]
  have hidle : s.icr.readLow false &&& deliveryStatus = 0 := by
    simp [Icr.readLow, BitVec.and_assoc]
  simp [List.replicate_succ, run_cons, step, access, start, hidle, State.finish, sendIpi, hstack,
    Icr.writeReg_high]

end LocalApic

/-! ### The controller -/

/-- `IPI_SCHEDULE_VECTOR`. -/
def Scheduler.ipiScheduleVector : BitVec 8 := 0xFE

/-- The controller, its local APIC, and the statics that it uses. -/
structure System where
  ctrl : SmpController
  percpus : PerCpus
  icr : Icr
  /-- `NEXT_TASK_ID`, an `AtomicU64`. -/
  nextTaskId : ℕ
  /-- `AP_HALT`. -/
  apHalt : Bool
  /-- What the local APIC has sent so far. -/
  sent : List Ipi

namespace System

/-- Send an IPI to a specific core; one that is not registered gets none. -/
def ipiSend (s : System) (targetCore : ℕ) (vector : BitVec 8) : System :=
  match s.percpus.ipiSend targetCore vector with
  | some (dest, flags) =>
      let written := sendIpi s.icr ⟨dest, flags⟩
      { s with icr := written.1, sent := s.sent ++ written.2 }
  | none => s

/-- The controller is initialized, and all its cores have registered with the id
that they have read from their local APICs. -/
structure Ready (s : System) : Prop where
  initialized : s.ctrl.initialized = true
  scheduler : ∃ sched, s.ctrl.scheduler = some sched ∧ sched.numCores = s.ctrl.numCores ∧
    sched.runQueues.length = s.ctrl.numCores
  cores : 1 ≤ s.ctrl.numCores
  registered : ∀ c < s.ctrl.numCores, ∃ cpu raw, s.percpus.getCpu c = some cpu ∧
    cpu.apicId = LocalApic.id raw

/-- The IPI that `ipi_send` asks for: fixed, with the given vector. -/
def fixedIpi (apicId : BitVec 32) (vector : BitVec 8) : Ipi where
  dest := apicId
  flags := PerCpus.icrFlags ||| vector.setWidth 32

variable {s : System} {core : ℕ} {vector : BitVec 8}

theorem deliveryMode_fixedIpi (apicId : BitVec 32) (vector : BitVec 8) :
    (fixedIpi apicId vector).deliveryMode = deliveryFixed := by
  ext i hi
  simp [fixedIpi, Ipi.deliveryMode, deliveryFixed, PerCpus.icrFlags]

theorem vector_fixedIpi (apicId : BitVec 32) (vector : BitVec 8) :
    (fixedIpi apicId vector).vector = vector := by
  simp [fixedIpi, Ipi.vector, PerCpus.icrFlags]

theorem ipiSend_ctrl (s : System) (core : ℕ) (vector : BitVec 8) :
    (s.ipiSend core vector).ctrl = s.ctrl := by
  unfold ipiSend
  split <;> rfl

theorem ipiSend_percpus (s : System) (core : ℕ) (vector : BitVec 8) :
    (s.ipiSend core vector).percpus = s.percpus := by
  unfold ipiSend
  split <;> rfl

theorem Ready.congr {t : System} (h : s.Ready) (hctrl : t.ctrl = s.ctrl)
    (hpercpus : t.percpus = s.percpus) : t.Ready := by
  obtain ⟨hinitialized, hscheduler, hcores, hregistered⟩ := h
  refine ⟨?_, ?_, ?_, ?_⟩ <;> rw [hctrl] <;> try rw [hpercpus]
  all_goals assumption

/-- A registered core is sent one IPI. -/
theorem Ready.sent_ipiSend (h : s.Ready) (hcore : core < s.ctrl.numCores) (vector : BitVec 8) :
    ∃ cpu, s.percpus.getCpu core = some cpu ∧
      (s.ipiSend core vector).sent = s.sent ++ [fixedIpi cpu.apicId vector] := by
  obtain ⟨cpu, raw, hcpu, hid⟩ := h.registered core hcore
  have hlt : cpu.apicId < 256 := hid ▸ id_lt raw
  have hsend := sendIpi_of_lt s.icr (show (fixedIpi cpu.apicId vector).dest < 256 from hlt)
  refine ⟨cpu, hcpu, ?_⟩
  simp only [ipiSend, PerCpus.ipiSend, hcpu, Option.map_some]
  exact congrArg (s.sent ++ ·) (congrArg Prod.snd hsend)

theorem Ready.ipiSend (h : s.Ready) (core : ℕ) (vector : BitVec 8) :
    (s.ipiSend core vector).Ready :=
  h.congr (ipiSend_ctrl s core vector) (ipiSend_percpus s core vector)

/-- A controller that has gone through `init` is ready once the cores have
registered. -/
theorem ready_of_init (bspApicId : BitVec 32) (madt : MadtInfo) (ok : ℕ → Bool)
    (hfew : (madt.enabledAps bspApicId).length + 1 < 2 ^ 32)
    (hctrl : s.ctrl = (SmpController.new bspApicId).init madt ok)
    (hregistered : ∀ c < s.ctrl.numCores, ∃ cpu raw, s.percpus.getCpu c = some cpu ∧
      cpu.apicId = LocalApic.id raw) : s.Ready where
  initialized := by
    rw [hctrl]
    rfl
  scheduler := by
    rw [hctrl]
    exact ⟨_, rfl, rfl, by simp [Scheduler.new, SmpController.init, SmpController.numCores]⟩
  cores := by
    have hle : Nat.count (fun i => ok i) (madt.enabledAps bspApicId).length ≤
        (madt.enabledAps bspApicId).length := Nat.count_le _
    rw [hctrl, SmpController.numCores_init (by omega)]
    exact Nat.le_add_right 1 _
  registered := hregistered

/-- Two cores that have registered with the ids 0 and 1. -/
theorem registered_two {c : ℕ} (hc : c < 2) :
    ∃ cpu raw, ((PerCpus.empty.store ⟨0, 0, true⟩).store ⟨1, 1, false⟩).getCpu c = some cpu ∧
      cpu.apicId = LocalApic.id raw := by
  rcases c with _ | _ | c
  · exact ⟨⟨0, 0, true⟩, 0, rfl, rfl⟩
  · exact ⟨⟨1, 1, false⟩, 0x01000000, rfl, rfl⟩
  · omega

end System

end SmpNostd
