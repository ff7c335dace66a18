import SmpNostd.Apic.Redirection
import SmpNostd.Lib.LiveDevice

/-!
What the redirection table is set to, on a device in use (`ioapic.rs`).

A redirection entry packs the settings of a pin into 64 bits, at the places where
the device looks for them. Two more of these bits are not settings: the device sets
and clears the delivery status and the remote IRR as interrupts come and go, and
ignores what is written to them. The driver takes no notice of this. It reads an
entry, changes the mask and writes back the old status with it, and all the while
interrupts may arrive.

Whatever arrives, the settings of the pins follow the calls of the methods.
-/

namespace SmpNostd

open Mmio

/-! ### The settings in an entry -/

/-- What the device does with the interrupts of a pin. The modes are the codes that
the device has for them. -/
structure Settings where
  vector : BitVec 8
  deliveryMode : BitVec 3
  destMode : BitVec 1
  polarity : BitVec 1
  triggerMode : BitVec 1
  masked : Bool
  destination : BitVec 8
  deriving DecidableEq, Repr

namespace RedirectionEntry

/-- Get the vector field. -/
def vector (entry : RedirectionEntry) : BitVec 8 := (entry.raw &&& 0xFF).setWidth 8

/-- Get the destination field (bits 56..63). -/
def destination (entry : RedirectionEntry) : BitVec 8 :=
  ((entry.raw >>> 56) &&& 0xFF).setWidth 8

/-- How the device reads an entry. -/
def settings (entry : RedirectionEntry) : Settings where
  vector := entry.raw.extractLsb' 0 8
  deliveryMode := entry.raw.extractLsb' 8 3
  destMode := entry.raw.extractLsb' 11 1
  polarity := entry.raw.extractLsb' 13 1
  triggerMode := entry.raw.extractLsb' 15 1
  masked := entry.raw.getLsbD 16
  destination := entry.raw.extractLsb' 56 8

end RedirectionEntry

/-- The entry that `new` makes of settings. The constants of the source are the codes
in their places: `DELMODE_NMI` is 0b100 in bits 8 to 10, `POLARITY_LOW` is 1 in bit
13. -/
def Settings.entry (s : Settings) : RedirectionEntry :=
  .new s.vector (s.deliveryMode.setWidth 64 <<< 8) (s.destMode.setWidth 64 <<< 11)
    (s.polarity.setWidth 64 <<< 13) (s.triggerMode.setWidth 64 <<< 15) s.masked s.destination

/-- What `simple` sets. -/
def Settings.simple (vector destination : BitVec 8) : Settings where
  vector := vector
  deliveryMode := 0
  destMode := 0
  polarity := 0
  triggerMode := 0
  masked := false
  destination := destination

/-- What `masked` sets. -/
def Settings.off : Settings := { Settings.simple 0 0 with masked := true }

namespace RedirectionEntry

/-- The fields of an entry, each in its place. -/
theorem raw_entry (s : Settings) : s.entry.raw = s.vector.setWidth 64 <<< 0 |||
    s.deliveryMode.setWidth 64 <<< 8 ||| s.destMode.setWidth 64 <<< 11 |||
    s.polarity.setWidth 64 <<< 13 ||| s.triggerMode.setWidth 64 <<< 15 |||
    s.destination.setWidth 64 <<< 56 ||| (BitVec.ofBool s.masked).setWidth 64 <<< 16 := by
  rw [Settings.entry, new, BitVec.shiftLeft_zero]
  cases s.masked with
  | false => simp
  | true => rfl

theorem masked_eq (e : RedirectionEntry) :
    BitVec.ofBool e.settings.masked = e.raw.extractLsb' 16 1 := by
  apply BitVec.eq_of_getLsbD_eq
  intro i hi
  obtain rfl : i = 0 := by omega
  simp [settings]

/-- The settings that go into an entry are those the device finds there. -/
theorem settings_entry (s : Settings) : s.entry.settings = s := by
  have hmasked : BitVec.ofBool s.entry.settings.masked = BitVec.ofBool s.masked := by
    rw [masked_eq, raw_entry]
    simp (disch := omega) only [BitVec.extractLsb'_or, Bits.extractLsb'_field,
      Bits.extractLsb'_field_of_disjoint, BitVec.or_zero, BitVec.zero_or]
  have hmasked : s.entry.settings.masked = s.masked := by
    simpa using congrArg (BitVec.getLsbD · 0) hmasked
  have hbits : s.entry.settings = { s with masked := s.entry.settings.masked } := by
    rw [settings, raw_entry]
    simp (disch := omega) only [BitVec.extractLsb'_or, Bits.extractLsb'_field,
      Bits.extractLsb'_field_of_disjoint, BitVec.or_zero, BitVec.zero_or]
  rw [hbits, hmasked]

theorem vector_eq (e : RedirectionEntry) : e.vector = e.settings.vector := by
  have hff : (0xFF : BitVec 64) = BitVec.ofNat 64 (2 ^ 8 - 1) := rfl
  rw [vector, hff, Bits.setWidth_and_low (by omega)]
  apply BitVec.eq_of_getLsbD_eq
  intro i hi
  simp [settings, hi]

theorem destination_eq (e : RedirectionEntry) : e.destination = e.settings.destination := by
  have hff : (0xFF : BitVec 64) = BitVec.ofNat 64 (2 ^ 8 - 1) := rfl
  rw [destination, hff, Bits.setWidth_and_low (by omega)]
  apply BitVec.eq_of_getLsbD_eq
  intro i hi
  simp [settings, hi]

theorem settings_simple (vector dest : BitVec 8) :
    (RedirectionEntry.simple vector dest).settings = .simple vector dest :=
  settings_entry (.simple vector dest)

theorem settings_masked : masked.settings = .off := settings_entry .off

theorem settings_setMasked (e : RedirectionEntry) (mask : Bool) :
    (e.setMasked mask).settings = { e.settings with masked := mask } := by
  have hfield : ∀ p n, p + n ≤ 16 ∨ 16 < p →
      (e.setMasked mask).raw.extractLsb' p n = e.raw.extractLsb' p n := by
    intro p n hdisjoint
    apply BitVec.eq_of_getLsbD_eq
    intro i hi
    have hne : p + i ≠ 16 := by omega
    rw [BitVec.getLsbD_extractLsb', BitVec.getLsbD_extractLsb', IoApic.getLsbD_setMasked,
      if_neg hne]
  have hmask : (e.setMasked mask).raw.getLsbD 16 = mask := by
    rw [IoApic.getLsbD_setMasked, if_pos rfl]
  rw [settings, hmask]
  simp (disch := omega) only [hfield]
  rfl

end RedirectionEntry

/-! ### The device's part of the registers -/

namespace IoApic

open RedirectionEntry

/-- The delivery status and the remote IRR. -/
def statusBits : BitVec 32 := 1 <<< 12 ||| 1 <<< 14

/-- The register is the low one of a pin. -/
def IsLow (i : BitVec 8) : Prop := regRedtblBase.toNat ≤ i.toNat ∧ i.toNat % 2 = 0

instance (i : BitVec 8) : Decidable (IsLow i) := inferInstanceAs (Decidable (_ ∧ _))

/-- What of a register is up to the driver. -/
def own (i : BitVec 8) (v : BitVec 32) : BitVec 32 := if IsLow i then v &&& ~~~statusBits else v

/-- What the device makes of a write to a register of the table. -/
def put (i : BitVec 8) (old v : BitVec 32) : BitVec 32 :=
  if IsLow i then (old &&& statusBits) ||| (v &&& ~~~statusBits) else v

theorem getLsbD_statusBits (j : ℕ) : statusBits.getLsbD j = (decide (j = 12 ∨ j = 14)) := by
  have hbits : statusBits = BitVec.twoPow 32 12 ||| BitVec.twoPow 32 14 := rfl
  rw [hbits, BitVec.getLsbD_or, BitVec.getLsbD_twoPow, BitVec.getLsbD_twoPow]
  simp [eq_comm]

/-- Two values of a low register are the same to the driver if they have the same bits
other than 12 and 14. -/
theorem own_eq_iff {i : BitVec 8} (h : IsLow i) {v v' : BitVec 32} :
    own i v = own i v' ↔ ∀ j, j ≠ 12 → j ≠ 14 → v.getLsbD j = v'.getLsbD j := by
  rw [own, own, if_pos h, if_pos h]
  constructor
  · intro heq j hj hj'
    by_cases hlt : j < 32
    · have hbit := congrArg (BitVec.getLsbD · j) heq
      simpa only [BitVec.getLsbD_and, BitVec.getLsbD_not, getLsbD_statusBits, hj, hj', or_self,
        decide_false, Bool.not_false, hlt, decide_true, Bool.and_true] using hbit
    · rw [v.getLsbD_of_ge j (by omega), v'.getLsbD_of_ge j (by omega)]
  · intro hbits
    apply BitVec.eq_of_getLsbD_eq
    intro j hj
    rw [BitVec.getLsbD_and, BitVec.getLsbD_and, BitVec.getLsbD_not, getLsbD_statusBits]
    by_cases hstatus : j = 12 ∨ j = 14
    · simp [hstatus]
    · rw [not_or] at hstatus
      rw [hbits j hstatus.1 hstatus.2]

theorem own_put (i : BitVec 8) (old v : BitVec 32) : own i (put i old v) = own i v := by
  by_cases hlow : IsLow i
  · rw [own_eq_iff hlow]
    intro j hj hj'
    have hstatus : statusBits.getLsbD j = false := by simp [getLsbD_statusBits, hj, hj']
    rw [put, if_pos hlow]
    by_cases hlt : j < 32
    · simp only [BitVec.getLsbD_or, BitVec.getLsbD_and, BitVec.getLsbD_not, hstatus, hlt,
        decide_true, Bool.not_false, Bool.and_true, Bool.and_false, Bool.false_or]
    · rw [BitVec.getLsbD_of_ge _ j (by omega), BitVec.getLsbD_of_ge _ j (by omega)]
  · rw [put, if_neg hlow]

/-- Only the first 120 pins have registers that the index does not wrap around to. -/
theorem isLow_regBase {irq : BitVec 8} (h : irq.toNat < 120) : IsLow (regBase irq) := by
  have hbase : regRedtblBase.toNat = 16 := rfl
  rw [IsLow, toNat_regBase h, hbase]
  omega

theorem not_isLow_regBase_add_one {irq : BitVec 8} (h : irq.toNat < 120) :
    ¬IsLow (regBase irq + 1) := by
  rw [IsLow, toNat_regBase_add_one h]
  omega

/-! ### Entries that differ in the status only -/

/-- The entries differ in nothing but the status. -/
def SameButStatus (e e' : RedirectionEntry) : Prop :=
  ∀ j, j ≠ 12 → j ≠ 14 → e.raw.getLsbD j = e'.raw.getLsbD j

theorem SameButStatus.settings {e e' : RedirectionEntry} (h : SameButStatus e e') :
    e.settings = e'.settings := by
  have hfield : ∀ p n, p + n ≤ 12 ∨ 12 < p ∧ p + n ≤ 14 ∨ 14 < p →
      e.raw.extractLsb' p n = e'.raw.extractLsb' p n := by
    intro p n hp
    apply BitVec.eq_of_getLsbD_eq
    intro i hi
    rw [BitVec.getLsbD_extractLsb', BitVec.getLsbD_extractLsb',
      h (p + i) (by omega) (by omega)]
  simp (disch := omega) only [RedirectionEntry.settings, hfield]
  rw [h 16 (by omega) (by omega)]

theorem SameButStatus.setMasked {e e' : RedirectionEntry} (h : SameButStatus e e') (mask : Bool) :
    SameButStatus (e.setMasked mask) (e'.setMasked mask) := by
  intro j hj hj'
  rw [getLsbD_setMasked, getLsbD_setMasked, h j hj hj']

variable {irq : BitVec 8}

theorem sameButStatus_entryOf (h : irq.toNat < 120) {low low' high high' : BitVec 32}
    (hlow : own (regBase irq) low = own (regBase irq) low')
    (hhigh : own (regBase irq + 1) high = own (regBase irq + 1) high') :
    SameButStatus (entryOf low high) (entryOf low' high') := by
  have hlow := (own_eq_iff (isLow_regBase h)).mp hlow
  rw [own, own, if_neg (not_isLow_regBase_add_one h), if_neg (not_isLow_regBase_add_one h)]
    at hhigh
  subst hhigh
  intro j hj hj'
  simp only [entryOf, BitVec.getLsbD_or, BitVec.getLsbD_setWidth, hlow j hj hj']

theorem SameButStatus.own_low (h : irq.toNat < 120) {e e' : RedirectionEntry}
    (he : SameButStatus e e') : own (regBase irq) e.low = own (regBase irq) e'.low := by
  refine (own_eq_iff (isLow_regBase h)).mpr fun j hj hj' => ?_
  rw [RedirectionEntry.low, RedirectionEntry.low, BitVec.getLsbD_setWidth,
    BitVec.getLsbD_setWidth, he j hj hj']

theorem SameButStatus.high {e e' : RedirectionEntry} (he : SameButStatus e e') :
    e.high = e'.high := by
  apply BitVec.eq_of_getLsbD_eq
  intro j hj
  have hbit := he (32 + j) (by omega) (by omega)
  simp only [RedirectionEntry.high, BitVec.getLsbD_setWidth, BitVec.getLsbD_ushiftRight, hbit]

/-! ### The methods -/

variable {apic : IoApic}

theorem lt_of_lt_maxEntries (hmax : apic.maxEntries.toNat ≤ 120) (h : irq < apic.maxEntries) :
    irq.toNat < 120 :=
  Nat.lt_of_lt_of_le h hmax

theorem rel_readRedirection (hmax : apic.maxEntries.toNat ≤ 120) (irq : BitVec 8) :
    (apic.readRedirection irq).Rel own SameButStatus (apic.readRedirection irq) := by
  unfold readRedirection
  split
  · rename_i hirq
    refine .read fun low low' hlow => ?_
    refine .read fun high high' hhigh => ?_
    exact .ret (sameButStatus_entryOf (lt_of_lt_maxEntries hmax hirq) hlow hhigh)
  · exact .panic

theorem rel_writeRedirection (hmax : apic.maxEntries.toNat ≤ 120) (irq : BitVec 8)
    {e e' : RedirectionEntry} (he : SameButStatus e e') :
    (apic.writeRedirection irq e).Rel own Eq (apic.writeRedirection irq e') := by
  unfold writeRedirection
  split
  · rename_i hirq
    refine .write (he.own_low (lt_of_lt_maxEntries hmax hirq)) ?_
    exact .write (congrArg (own _) he.high) (.ret rfl)
  · exact .panic

theorem rel_updateMask (hmax : apic.maxEntries.toNat ≤ 120) (mask : Bool) (irq : BitVec 8) :
    (apic.updateMask mask irq).Rel own Eq (apic.updateMask mask irq) :=
  (rel_readRedirection hmax irq).bind fun _ _ he => rel_writeRedirection hmax irq (he.setMasked mask)

theorem rel_maskPins (hmax : apic.maxEntries.toNat ≤ 120) (pins : List (BitVec 8)) :
    (apic.maskPins pins).Rel own Eq (apic.maskPins pins) := by
  induction pins with
  | nil => exact .ret rfl
  | cons irq pins ih =>
      refine (rel_writeRedirection hmax irq ?_).bind fun _ _ _ => ih
      exact fun _ _ _ => rfl

/-- A call of a method that changes entries. -/
inductive TableOp
  | write (irq : BitVec 8) (entry : RedirectionEntry)
  | route (gsi : BitVec 32) (vector dest : BitVec 8)
  | mask (irq : BitVec 8)
  | unmask (irq : BitVec 8)
  | maskAll
  deriving DecidableEq, Repr

def TableOp.prog (apic : IoApic) : TableOp → IoProg Unit
  | .write irq entry => apic.writeRedirection irq entry
  | .route gsi vector dest => apic.routeIrq gsi vector dest
  | .mask irq => apic.maskIrq irq
  | .unmask irq => apic.unmaskIrq irq
  | .maskAll => apic.maskAll

/-- Calls one after the other. -/
def progs (apic : IoApic) : List TableOp → IoProg Unit
  | [] => return ()
  | op :: ops => do
      op.prog apic
      apic.progs ops

/-- The settings of every pin. -/
abbrev SettingsTable := BitVec 8 → Settings

/-- The settings of a pin that there is are changed. -/
def SettingsTable.set (apic : IoApic) (table : SettingsTable) (irq : BitVec 8)
    (settings : Settings) : Option SettingsTable :=
  if irq < apic.maxEntries then some (Function.update table irq settings) else none

/-- What a call is to do to the settings; `none` if it is to panic. -/
def TableOp.step (apic : IoApic) (table : SettingsTable) : TableOp → Option SettingsTable
  | .write irq entry => table.set apic irq entry.settings
  | .route gsi vector dest => table.set apic (apic.pinOf gsi) (.simple vector dest)
  | .mask irq => table.set apic irq { table irq with masked := true }
  | .unmask irq => table.set apic irq { table irq with masked := false }
  | .maskAll => some fun irq => if irq < apic.maxEntries then .off else table irq

/-- A device has the settings of the table for the pins that there are. -/
def HasSettings (apic : IoApic) (d : IoDevice) (table : SettingsTable) : Prop :=
  ∀ irq < apic.maxEntries, (entry d irq).settings = table irq

variable {d : IoDevice} {table : SettingsTable}

theorem HasSettings.writeEntry (hmax : apic.maxEntries.toNat ≤ 120)
    (h : HasSettings apic d table) (hirq : irq < apic.maxEntries) (e : RedirectionEntry) :
    HasSettings apic (writeEntry d irq e) (Function.update table irq e.settings) := by
  intro irq' hirq'
  by_cases heq : irq' = irq
  · subst heq
    rw [entry_writeEntry_self, Function.update_self]
  · rw [Function.update_of_ne heq, entry_writeEntry_of_ne (Nat.lt_of_lt_of_le hirq hmax)
      (Nat.lt_of_lt_of_le hirq' hmax) heq, h irq' hirq']

/-- Run alone, the program leaves the device with the settings of the table, or panics
where there is none. -/
def Performs (apic : IoApic) (d : IoDevice) (p : IoProg Unit) : Option SettingsTable → Prop
  | some table => ∃ d', p.exec d = (d', some ()) ∧ HasSettings apic d' table
  | none => (p.exec d).2 = none

theorem Performs.bind {p q : IoProg Unit} {result : Option SettingsTable}
    (hp : Performs apic d p (some table))
    (hq : ∀ d', HasSettings apic d' table → Performs apic d' q result) :
    Performs apic d (p >>= fun _ => q) result := by
  obtain ⟨d', hexec, h'⟩ := hp
  have hq := hq d' h'
  have hbind := Prog.exec_bind_of_eq_some hexec fun _ => q
  cases result with
  | none => rwa [Performs, hbind]
  | some table' =>
      obtain ⟨d'', hexec', h''⟩ := hq
      exact ⟨d'', hbind.trans hexec', h''⟩

theorem Performs.bind_none {p : IoProg Unit} (hp : Performs apic d p none) (q : IoProg Unit) :
    Performs apic d (p >>= fun _ => q) none := by
  rw [Performs, Prog.exec_bind]
  cases hexec : p.exec d with
  | mk d' result =>
      rw [Performs, hexec] at hp
      cases hp
      rfl

theorem performs_writeRedirection (hmax : apic.maxEntries.toNat ≤ 120)
    (h : HasSettings apic d table) (irq : BitVec 8) (e : RedirectionEntry) :
    Performs apic d (apic.writeRedirection irq e) (table.set apic irq e.settings) := by
  unfold SettingsTable.set
  split
  · rename_i hirq
    exact ⟨_, exec_writeRedirection hirq e, h.writeEntry hmax hirq e⟩
  · rename_i hirq
    rw [Performs, writeRedirection, if_neg hirq, Prog.exec]

theorem performs_updateMask (hmax : apic.maxEntries.toNat ≤ 120)
    (h : HasSettings apic d table) (mask : Bool) (irq : BitVec 8) :
    Performs apic d (apic.updateMask mask irq)
      (table.set apic irq { table irq with masked := mask }) := by
  unfold SettingsTable.set
  split
  · rename_i hirq
    refine ⟨_, exec_updateMask hirq mask, ?_⟩
    have hwrite := h.writeEntry hmax hirq ((entry d irq).setMasked mask)
    rwa [settings_setMasked, h irq hirq] at hwrite
  · rename_i hirq
    rw [Performs, updateMask, readRedirection, if_neg hirq]
    rfl

/-- A call does alone to the registers what it is to do to the settings. -/
theorem performs_prog (hmax : apic.maxEntries.toNat ≤ 120) (h : HasSettings apic d table)
    (op : TableOp) : Performs apic d (op.prog apic) (op.step apic table) := by
  cases op with
  | write irq e => exact performs_writeRedirection hmax h irq e
  | route gsi vector dest =>
      have hwrite := performs_writeRedirection hmax h (apic.pinOf gsi) (.simple vector dest)
      rwa [settings_simple] at hwrite
  | mask irq => exact performs_updateMask hmax h true irq
  | unmask irq => exact performs_updateMask hmax h false irq
  | maskAll =>
      obtain ⟨d', hexec, hentry⟩ := exec_maskAll hmax d
      refine ⟨d', hexec, fun irq hirq => ?_⟩
      rw [hentry irq hirq, settings_masked]
      exact (if_pos hirq).symm

theorem performs_progs (hmax : apic.maxEntries.toNat ≤ 120) (h : HasSettings apic d table)
    (ops : List TableOp) :
    Performs apic d (apic.progs ops) (Machine.run (TableOp.step apic) table ops) := by
  induction ops generalizing d table with
  | nil => exact ⟨d, rfl, h⟩
  | cons op ops ih =>
      have hop := performs_prog hmax h op
      rw [Machine.run_cons, progs]
      cases hstep : op.step apic table with
      | none =>
          rw [hstep] at hop
          exact hop.bind_none _
      | some table' =>
          rw [hstep] at hop
          exact hop.bind fun d' h' => ih h'

theorem rel_progs (hmax : apic.maxEntries.toNat ≤ 120) (ops : List TableOp) :
    (apic.progs ops).Rel own Eq (apic.progs ops) := by
  induction ops with
  | nil => exact .ret rfl
  | cons op ops ih =>
      refine Prog.Rel.bind (R := Eq) ?_ fun _ _ _ => ih
      cases op with
      | write irq e | route => exact rel_writeRedirection hmax _ fun _ _ _ => rfl
      | mask irq | unmask irq => exact rel_updateMask hmax _ irq
      | maskAll => exact rel_maskPins hmax apic.pins

theorem HasSettings.congr (hmax : apic.maxEntries.toNat ≤ 120) {d' : IoDevice}
    (h : HasSettings apic d table) (hregs : ∀ i, own i (d'.regs i) = own i (d.regs i)) :
    HasSettings apic d' table := by
  intro irq hirq
  have hsame : SameButStatus (entry d' irq) (entry d irq) :=
    sameButStatus_entryOf (lt_of_lt_maxEntries hmax hirq) (hregs _) (hregs _)
  rw [hsame.settings, h irq hirq]

/-- **The settings follow the calls.** An entry made up of settings by `new` has these
settings for the device and for the methods that read it. On a device with at most 120
entries that sets and clears the delivery status and the remote IRR of its pins
between any two accesses of the driver, any calls of `write_redirection`, `route_irq`,
`mask_irq`, `unmask_irq` and `mask_all`, one after the other, leave the pins with the
settings that the calls, taken as operations on a table of settings, make of those
before; and they panic only if one of them is for a pin that there is not. -/
theorem settings_follow_calls (apic : IoApic) (hmax : apic.maxEntries.toNat ≤ 120)
    (d : IoDevice) (ops : List TableOp) :
    (∀ s : Settings, s.entry.settings = s ∧ s.entry.vector = s.vector ∧
      s.entry.isMasked = s.masked ∧ s.entry.destination = s.destination) ∧
    ∀ events d' p', Machine.run (liveStep own put) (d, apic.progs ops) events = some (d', p') →
      (p' = .ret () → ∃ table,
        Machine.run (TableOp.step apic) (fun irq => (entry d irq).settings) ops = some table ∧
        HasSettings apic d' table) ∧
      (p' = .panic →
        Machine.run (TableOp.step apic) (fun irq => (entry d irq).settings) ops = none) := by
  refine ⟨fun s => ⟨settings_entry s, ?_, ?_, ?_⟩, fun events d' p' hrun => ?_⟩
  · rw [vector_eq, settings_entry]
  · rw [isMasked_eq]
    exact congrArg Settings.masked (settings_entry s)
  · rw [destination_eq, settings_entry]
  · have hstart : HasSettings apic d fun irq => (entry d irq).settings := fun _ _ => rfl
    have hperforms := performs_progs hmax hstart ops
    obtain ⟨hret, hpanic⟩ := (rel_progs hmax ops).live own_put (fun _ => rfl) hrun
    constructor
    · intro hp'
      obtain ⟨e, _, hexec, -, hregs⟩ := hret () hp'
      cases hresult : Machine.run (TableOp.step apic) (fun irq => (entry d irq).settings) ops with
      | none =>
          rw [hresult, Performs, hexec] at hperforms
          cases hperforms
      | some table =>
          rw [hresult] at hperforms
          obtain ⟨e', hexec', hsettings⟩ := hperforms
          obtain rfl : e' = e := congrArg Prod.fst (hexec'.symm.trans hexec)
          exact ⟨table, rfl, hsettings.congr hmax hregs⟩
    · intro hp'
      have hnone := hpanic hp'
      cases hresult : Machine.run (TableOp.step apic) (fun irq => (entry d irq).settings) ops with
      | none => rfl
      | some table =>
          rw [hresult] at hperforms
          obtain ⟨e', hexec', -⟩ := hperforms
          rw [hexec'] at hnone
          cases hnone

/-- An interrupt of pin 2 comes while the pin is masked. The remote IRR is set after the
driver has read the entry, which it then writes back. -/
def maskWhilePending : List (Event (BitVec 8) (BitVec 32)) :=
  [.access, .access, .access, .access, .change (regBase 2) 0xC021, .access, .access, .access,
    .access]

/-- Pin 2 is level-triggered, and its interrupts go to core 3 with vector 0x21. -/
def levelPin : IoDevice := ⟨0, fun i => if i = regBase 2 then 0x8021 else 0x3000000⟩

theorem settings_follow_calls_pending :
    ∃ d', Machine.run (liveStep own put) (levelPin, progs ⟨0, 24⟩ [.mask 2]) maskWhilePending =
        some (d', .ret ()) ∧
      (entry d' 2).settings = { Settings.simple 0x21 3 with triggerMode := 1, masked := true } ∧
      (entry d' 2).raw.getLsbD 14 = true := by
  let d' := ((Machine.run (liveStep own put) (levelPin, progs ⟨0, 24⟩ [.mask 2])
    maskWhilePending).get (by decide)).1
  have hrun : Machine.run (liveStep own put) (levelPin, progs ⟨0, 24⟩ [.mask 2])
    maskWhilePending = some (d', .ret ()) := rfl
  obtain ⟨-, hfollow⟩ := settings_follow_calls ⟨0, 24⟩ (by decide) levelPin [.mask 2]
  obtain ⟨table, htable, hsettings⟩ := (hfollow _ _ _ hrun).1 rfl
  refine ⟨d', hrun, ?_, by decide⟩
  rw [hsettings 2 (by decide)]
  cases htable
  decide

end IoApic

end SmpNostd
