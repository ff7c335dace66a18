import SmpNostd.Apic.Redirection
import SmpNostd.Boot.Registration

/-!
All I/O APICs of the system as one map from global system interrupts to
redirection entries.

The manager looks up the I/O APIC whose range a GSI is in, and goes through its
two registers to set up the entry; a core is named by its index, and its APIC id
is looked up among the registered ones. What all this is for is said in a few
lines by a map from GSIs to entries, and the drivers do what the map does.

There is one exception. The end of a range is computed in 32 bits, so the range
of an I/O APIC whose last pin is the last GSI there is looks empty.
-/

namespace SmpNostd

open Machine Mmio IoApic

/-- An I/O APIC discovered from the MADT, without its id, which nothing uses. -/
structure MadtIoApic where
  address : BitVec 64
  gsiBase : BitVec 32
  deriving DecidableEq, Repr

/-- The devices, by the base address of their registers. -/
abbrev IoDevices := BitVec 64 → IoDevice

/-- Run a program on the device at an address; `none` if it panics. -/
def IoDevices.exec {α : Type} (devices : IoDevices) (baseAddr : BitVec 64) (p : IoProg α) :
    Option (α × IoDevices) :=
  match p.exec (devices baseAddr) with
  | (d, some a) => some (a, Function.update devices baseAddr d)
  | (_, none) => none

/-- A driver, with the address of the device it drives. -/
structure ManagedIoApic where
  baseAddr : BitVec 64
  ioapic : IoApic
  deriving DecidableEq, Repr

/-- Manages multiple I/O APICs in the system. -/
structure IoApicManager where
  ioapics : List ManagedIoApic
  deriving DecidableEq, Repr

namespace IoApicManager

/-- Find the I/O APIC responsible for a given GSI. -/
def findForGsi (manager : IoApicManager) (gsi : BitVec 32) : Option ManagedIoApic :=
  manager.ioapics.find? fun a =>
    a.ioapic.gsiBase ≤ gsi && gsi < a.ioapic.gsiBase + a.ioapic.maxEntries.setWidth 32

/-- Run a method of the I/O APIC that is found for a GSI, if one is. -/
def onGsi (manager : IoApicManager) (devices : IoDevices) (gsi : BitVec 32)
    (method : IoApic → IoProg Unit) : Option IoDevices :=
  match manager.findForGsi gsi with
  | some a => (devices.exec a.baseAddr (method a.ioapic)).map Prod.snd
  | none => some devices

/-- Route a GSI to a specific CPU through the correct I/O APIC. -/
def routeGsi (manager : IoApicManager) (devices : IoDevices) (gsi : BitVec 32)
    (vector destApicId : BitVec 8) : Option IoDevices :=
  manager.onGsi devices gsi fun ioapic => ioapic.routeIrq gsi vector destApicId

/-- The loop of `mask_all` over the I/O APICs. -/
def maskEach (devices : IoDevices) : List ManagedIoApic → Option IoDevices
  | [] => some devices
  | a :: as => (devices.exec a.baseAddr a.ioapic.maskAll).bind fun r => maskEach r.2 as

/-- Mask all IRQs on all I/O APICs. -/
def maskAll (manager : IoApicManager) (devices : IoDevices) : Option IoDevices :=
  maskEach devices manager.ioapics

end IoApicManager

/-- Create a driver for each I/O APIC of the MADT, mask all its entries and add
it to the manager. -/
def initIoApics (devices : IoDevices) (manager : IoApicManager) :
    List MadtIoApic → Option (IoDevices × IoApicManager)
  | [] => some (devices, manager)
  | info :: infos =>
      (devices.exec info.address (IoApic.new info.gsiBase)).bind fun (ioapic, devices) =>
        (devices.exec info.address ioapic.maskAll).bind fun (_, devices) =>
          initIoApics devices ⟨manager.ioapics ++ [⟨info.address, ioapic⟩]⟩ infos

namespace InterruptRouting

/-- The operations that change entries. The pin that is masked or unmasked is
the one of a GSI on the I/O APIC found for it. -/
inductive Op
  /-- `SmpController::route_irq`. -/
  | routeIrq (gsi : BitVec 32) (vector : BitVec 8) (core : BitVec 32)
  /-- `IoApicManager::route_gsi`. -/
  | routeGsi (gsi : BitVec 32) (vector destApicId : BitVec 8)
  | maskIrq (gsi : BitVec 32)
  | unmaskIrq (gsi : BitVec 32)
  | maskAll
  deriving DecidableEq, Repr

structure State where
  devices : IoDevices
  manager : IoApicManager
  percpus : PerCpus

def step (s : State) (op : Op) : Option State :=
  let devices := match op with
    | .routeIrq gsi vector core =>
        match s.percpus.getCpu core.toNat with
        | some cpu => s.manager.routeGsi s.devices gsi vector (cpu.apicId.setWidth 8)
        | none => some s.devices
    | .routeGsi gsi vector destApicId => s.manager.routeGsi s.devices gsi vector destApicId
    | .maskIrq gsi => s.manager.onGsi s.devices gsi fun ioapic => ioapic.maskIrq (ioapic.pinOf gsi)
    | .unmaskIrq gsi =>
        s.manager.onGsi s.devices gsi fun ioapic => ioapic.unmaskIrq (ioapic.pinOf gsi)
    | .maskAll => s.manager.maskAll s.devices
  devices.map fun devices => { s with devices := devices }

/-! ### The abstract map -/

/-- The entry for each GSI. -/
abbrev InterruptMap := BitVec 32 → RedirectionEntry

/-- An unmasked entry: the vector in bits 0 to 7, the destination in bits 56 to
63, and zero elsewhere, which is edge-triggered, fixed and physical. -/
def routed (vector : BitVec 8) (destination : ℕ) : RedirectionEntry :=
  ⟨BitVec.ofNat 64 (vector.toNat + destination * 2 ^ 56)⟩

/-- An entry with another bit 16 and all else as it is. -/
def withMask (entry : RedirectionEntry) (mask : Bool) : RedirectionEntry :=
  ⟨entry.raw.extractLsb' 17 47 ++ BitVec.ofBool mask ++ entry.raw.extractLsb' 0 16⟩

/-- What an operation is to do to the map, given the GSIs there are and the
APIC ids of the cores there are. -/
def InterruptMap.step (covered : BitVec 32 → Bool) (apicId : ℕ → Option ℕ) (map : InterruptMap) :
    Op → InterruptMap
  | .routeIrq gsi vector core =>
      match apicId core.toNat with
      | some id => if covered gsi then Function.update map gsi (routed vector id) else map
      | none => map
  | .routeGsi gsi vector destApicId =>
      if covered gsi then Function.update map gsi (routed vector destApicId.toNat) else map
  | .maskIrq gsi =>
      if covered gsi then Function.update map gsi (withMask (map gsi) true) else map
  | .unmaskIrq gsi =>
      if covered gsi then Function.update map gsi (withMask (map gsi) false) else map
  | .maskAll => fun _ => .masked

/-- An operation that there is nothing to do for: no I/O APIC has the GSI, or
the core is not registered. -/
def Op.Ignored (covered : BitVec 32 → Bool) (apicId : ℕ → Option ℕ) : Op → Prop
  | .routeIrq gsi _ core => covered gsi = false ∨ apicId core.toNat = none
  | .routeGsi gsi _ _ | .maskIrq gsi | .unmaskIrq gsi => covered gsi = false
  | .maskAll => False

/-! ### The hardware -/

/-- The number of entries that IOAPICVER reports. -/
def reported (d : IoDevice) : ℕ := ((d.regs regIoapicver >>> 16) &&& 0xFF).toNat + 1

/-- What is assumed of the I/O APICs: they are different devices, have at most
120 entries each, and their ranges of GSIs end by `2 ^ 32` and do not overlap. -/
structure Hardware (devices : IoDevices) (infos : List MadtIoApic) : Prop where
  distinct : (infos.map MadtIoApic.address).Nodup
  pins : ∀ info ∈ infos, reported (devices info.address) ≤ 120
  fits : ∀ info ∈ infos, info.gsiBase.toNat + reported (devices info.address) ≤ 2 ^ 32
  disjoint : infos.Pairwise fun a b =>
    a.gsiBase.toNat + reported (devices a.address) ≤ b.gsiBase.toNat ∨
      b.gsiBase.toNat + reported (devices b.address) ≤ a.gsiBase.toNat

/-- The driver that is set up for an I/O APIC. -/
def managed (devices : IoDevices) (info : MadtIoApic) : ManagedIoApic where
  baseAddr := info.address
  ioapic := ⟨info.gsiBase, BitVec.ofNat 8 (reported (devices info.address))⟩

/-- The GSI is in the range of the I/O APIC. -/
def covers (a : ManagedIoApic) (gsi : BitVec 32) : Bool :=
  a.ioapic.gsiBase.toNat ≤ gsi.toNat ∧
    gsi.toNat < a.ioapic.gsiBase.toNat + a.ioapic.maxEntries.toNat

def covered (apics : List ManagedIoApic) (gsi : BitVec 32) : Bool := apics.any (covers · gsi)

/-- What is left of the assumptions once the drivers are set up, with the ranges
ending before `2 ^ 32`. -/
structure Ready (apics : List ManagedIoApic) : Prop where
  distinct : ∀ a ∈ apics, ∀ b ∈ apics, a.baseAddr = b.baseAddr → a = b
  pins : ∀ a ∈ apics, a.ioapic.maxEntries.toNat ≤ 120
  fits : ∀ a ∈ apics, a.ioapic.gsiBase.toNat + a.ioapic.maxEntries.toNat < 2 ^ 32
  disjoint : ∀ a ∈ apics, ∀ b ∈ apics, ∀ gsi, covers a gsi = true → covers b gsi = true → a = b

/-- The entries of the devices are those of the map. -/
def Represents (apics : List ManagedIoApic) (devices : IoDevices) (map : InterruptMap) : Prop :=
  ∀ a ∈ apics, ∀ pin < a.ioapic.maxEntries,
    entry (devices a.baseAddr) pin = map (a.ioapic.gsiBase + pin.setWidth 32)

/-! ### Looking up a GSI -/

variable {apics : List ManagedIoApic} {devices : IoDevices} {map : InterruptMap}
  {gsi : BitVec 32}

theorem covers_iff {a : ManagedIoApic} : covers a gsi = true ↔
    a.ioapic.gsiBase.toNat ≤ gsi.toNat ∧
      gsi.toNat < a.ioapic.gsiBase.toNat + a.ioapic.maxEntries.toNat :=
  decide_eq_true_iff

theorem toNat_rangeEnd {apic : IoApic}
    (hfits : apic.gsiBase.toNat + apic.maxEntries.toNat < 2 ^ 32) :
    (apic.gsiBase + apic.maxEntries.setWidth 32).toNat =
      apic.gsiBase.toNat + apic.maxEntries.toNat := by
  have hmax : apic.maxEntries.toNat < 2 ^ 8 := apic.maxEntries.isLt
  rw [BitVec.toNat_add, BitVec.toNat_setWidth,
    Nat.mod_eq_of_lt (show apic.maxEntries.toNat < 2 ^ 32 by omega), Nat.mod_eq_of_lt hfits]

/-- The comparison in `find_for_gsi`, where the sum does not overflow. -/
theorem inRange_eq_covers {a : ManagedIoApic}
    (hfits : a.ioapic.gsiBase.toNat + a.ioapic.maxEntries.toNat < 2 ^ 32) :
    (decide (a.ioapic.gsiBase ≤ gsi) &&
      decide (gsi < a.ioapic.gsiBase + a.ioapic.maxEntries.setWidth 32)) = covers a gsi := by
  rw [Bool.eq_iff_iff, Bool.and_eq_true, decide_eq_true_iff, decide_eq_true_iff, covers_iff,
    BitVec.le_def, BitVec.lt_def, toNat_rangeEnd hfits]

theorem Ready.findForGsi_eq_some (h : Ready apics) {a : ManagedIoApic} :
    (IoApicManager.mk apics).findForGsi gsi = some a ↔ a ∈ apics ∧ covers a gsi = true := by
  constructor
  · intro hfind
    have hmem := List.mem_of_find?_eq_some hfind
    have hrange := List.find?_some hfind
    rw [inRange_eq_covers (h.fits a hmem)] at hrange
    exact ⟨hmem, hrange⟩
  · rintro ⟨hmem, hcovers⟩
    cases hfind : (IoApicManager.mk apics).findForGsi gsi with
    | none =>
        have hnone := List.find?_eq_none.mp hfind a hmem
        rw [inRange_eq_covers (h.fits a hmem)] at hnone
        exact absurd hcovers hnone
    | some b =>
        have hb := List.mem_of_find?_eq_some hfind
        have hrange := List.find?_some hfind
        rw [inRange_eq_covers (h.fits b hb)] at hrange
        rw [h.disjoint b hb a hmem gsi hrange hcovers]

theorem toNat_pinOf {a : ManagedIoApic} (hcovers : covers a gsi = true) :
    (a.ioapic.pinOf gsi).toNat = gsi.toNat - a.ioapic.gsiBase.toNat := by
  obtain ⟨hle, hlt⟩ := covers_iff.mp hcovers
  have hmax := a.ioapic.maxEntries.isLt
  rw [pinOf, BitVec.toNat_setWidth, BitVec.toNat_sub_of_le (BitVec.le_def.mpr hle),
    Nat.mod_eq_of_lt (by omega)]

theorem pinOf_lt {a : ManagedIoApic} (hcovers : covers a gsi = true) :
    a.ioapic.pinOf gsi < a.ioapic.maxEntries := by
  obtain ⟨hle, hlt⟩ := covers_iff.mp hcovers
  rw [BitVec.lt_def, toNat_pinOf hcovers]
  omega

/-- The GSI of a pin. -/
theorem gsiBase_add_pinOf {a : ManagedIoApic} (hcovers : covers a gsi = true) :
    a.ioapic.gsiBase + (a.ioapic.pinOf gsi).setWidth 32 = gsi := by
  obtain ⟨hle, hlt⟩ := covers_iff.mp hcovers
  have hmax := a.ioapic.maxEntries.isLt
  have hgsi := gsi.isLt
  apply BitVec.eq_of_toNat_eq
  rw [BitVec.toNat_add, BitVec.toNat_setWidth, toNat_pinOf hcovers]
  omega

theorem covers_gsi {a : ManagedIoApic} {pin : BitVec 8} (hpin : pin < a.ioapic.maxEntries)
    (hfits : a.ioapic.gsiBase.toNat + a.ioapic.maxEntries.toNat ≤ 2 ^ 32) :
    covers a (a.ioapic.gsiBase + pin.setWidth 32) = true := by
  have hlt := pin.isLt
  rw [BitVec.lt_def] at hpin
  rw [covers_iff, BitVec.toNat_add, BitVec.toNat_setWidth]
  omega

theorem pinOf_gsi {a : ManagedIoApic} {pin : BitVec 8} :
    a.ioapic.pinOf (a.ioapic.gsiBase + pin.setWidth 32) = pin := by
  rw [pinOf, BitVec.add_comm, BitVec.add_sub_cancel]
  simp

/-! ### One operation -/

theorem Represents.writeEntry (hready : Ready apics) (h : Represents apics devices map)
    {a : ManagedIoApic} (ha : a ∈ apics) (hcovers : covers a gsi = true)
    (f : RedirectionEntry → RedirectionEntry) :
    Represents apics
      (Function.update devices a.baseAddr (IoApic.writeEntry (devices a.baseAddr)
        (a.ioapic.pinOf gsi) (f (entry (devices a.baseAddr) (a.ioapic.pinOf gsi)))))
      (Function.update map gsi (f (map gsi))) := by
  have hpin := pinOf_lt hcovers
  have hold : entry (devices a.baseAddr) (a.ioapic.pinOf gsi) = map gsi := by
    rw [h a ha _ hpin, gsiBase_add_pinOf hcovers]
  intro b hb pin hlt
  have hb_pins := hready.pins b hb
  have hb_covers := covers_gsi hlt (hready.fits b hb).le
  by_cases hab : b = a
  · subst hab
    rw [Function.update_self]
    by_cases heq : pin = b.ioapic.pinOf gsi
    · subst heq
      rw [entry_writeEntry_self, gsiBase_add_pinOf hcovers, Function.update_self, hold]
    · have hne : b.ioapic.gsiBase + pin.setWidth 32 ≠ gsi := by
        rintro rfl
        exact heq pinOf_gsi.symm
      rw [entry_writeEntry_of_ne (Nat.lt_of_lt_of_le hpin hb_pins)
        (Nat.lt_of_lt_of_le hlt hb_pins) heq, Function.update_of_ne hne]
      exact h b hb pin hlt
  · have haddr : b.baseAddr ≠ a.baseAddr := fun heq => hab (hready.distinct b hb a ha heq)
    have hne : b.ioapic.gsiBase + pin.setWidth 32 ≠ gsi := by
      intro heq
      rw [heq] at hb_covers
      exact hab (hready.disjoint b hb a ha gsi hb_covers hcovers)
    rw [Function.update_of_ne haddr, Function.update_of_ne hne]
    exact h b hb pin hlt

/-- A method that replaces the entry of the GSI's pin, run on the I/O APIC that
is found for the GSI. -/
theorem Represents.onGsi (hready : Ready apics) (h : Represents apics devices map)
    {method : IoApic → IoProg Unit} {f : RedirectionEntry → RedirectionEntry}
    (hmethod : ∀ (ioapic : IoApic) d, ioapic.pinOf gsi < ioapic.maxEntries →
      (method ioapic).exec d =
        (IoApic.writeEntry d (ioapic.pinOf gsi) (f (entry d (ioapic.pinOf gsi))), some ())) :
    ∃ devices', (IoApicManager.mk apics).onGsi devices gsi method = some devices' ∧
      Represents apics devices'
        (if covered apics gsi then Function.update map gsi (f (map gsi)) else map) ∧
      (covered apics gsi = false → devices' = devices) := by
  cases hfind : (IoApicManager.mk apics).findForGsi gsi with
  | some a =>
      obtain ⟨ha, hcovers⟩ := hready.findForGsi_eq_some.mp hfind
      have hcovered : covered apics gsi = true := List.any_eq_true.mpr ⟨a, ha, hcovers⟩
      have hexec := hmethod a.ioapic (devices a.baseAddr) (pinOf_lt hcovers)
      have hrun : (IoApicManager.mk apics).onGsi devices gsi method =
          some (Function.update devices a.baseAddr (IoApic.writeEntry (devices a.baseAddr)
            (a.ioapic.pinOf gsi) (f (entry (devices a.baseAddr) (a.ioapic.pinOf gsi))))) := by
        rw [IoApicManager.onGsi, hfind]
        simp only [IoDevices.exec, hexec, Option.map_some]
      refine ⟨_, hrun, ?_, fun hnot => ?_⟩
      · rw [if_pos hcovered]
        exact h.writeEntry hready ha hcovers f
      · rw [hcovered] at hnot
        cases hnot
  | none =>
      have hcovered : covered apics gsi = false := by
        rw [covered, List.any_eq_false]
        intro a ha hcovers
        rw [hready.findForGsi_eq_some.mpr ⟨ha, hcovers⟩] at hfind
        cases hfind
      refine ⟨devices, ?_, ?_, fun _ => rfl⟩
      · rw [IoApicManager.onGsi, hfind]
      · rw [hcovered]
        exact h

theorem simple_eq_routed (vector dest : BitVec 8) :
    RedirectionEntry.simple vector dest = routed vector dest.toNat := by
  have hvector := vector.isLt
  have hdest := dest.isLt
  have hraw : (RedirectionEntry.simple vector dest).raw =
      vector.setWidth 64 ||| dest.setWidth 64 <<< 56 := by
    simp [RedirectionEntry.simple, RedirectionEntry.new, RedirectionEntry.delmodeFixed,
      RedirectionEntry.destmodePhysical, RedirectionEntry.polarityHigh,
      RedirectionEntry.triggerEdge]
  have hor : vector.toNat ||| dest.toNat <<< 56 = dest.toNat <<< 56 + vector.toNat := by
    rw [Nat.shiftLeft_add_eq_or_of_lt (by omega), Nat.or_comm]
  rw [show RedirectionEntry.simple vector dest = ⟨(RedirectionEntry.simple vector dest).raw⟩ from
    rfl, hraw, routed, RedirectionEntry.mk.injEq]
  apply BitVec.eq_of_toNat_eq
  rw [BitVec.toNat_or, BitVec.toNat_shiftLeft, BitVec.toNat_setWidth, BitVec.toNat_setWidth,
    BitVec.toNat_ofNat, Nat.mod_eq_of_lt (show vector.toNat < 2 ^ 64 by omega),
    Nat.mod_eq_of_lt (show dest.toNat < 2 ^ 64 by omega), Nat.shiftLeft_eq,
    Nat.mod_eq_of_lt (show dest.toNat * 2 ^ 56 < 2 ^ 64 by omega), ← Nat.shiftLeft_eq, hor,
    Nat.shiftLeft_eq, Nat.add_comm, Nat.mod_eq_of_lt (by omega)]

theorem setMasked_eq_withMask (e : RedirectionEntry) (mask : Bool) :
    e.setMasked mask = withMask e mask := by
  rw [show e.setMasked mask = ⟨(e.setMasked mask).raw⟩ from rfl, withMask,
    RedirectionEntry.mk.injEq]
  apply BitVec.eq_of_getLsbD_eq
  intro i hi
  rw [getLsbD_setMasked, BitVec.getLsbD_append, BitVec.getLsbD_append, BitVec.getLsbD_extractLsb',
    BitVec.getLsbD_extractLsb', BitVec.getLsbD_ofBool]
  rcases Nat.lt_trichotomy i 16 with hlt | rfl | hgt
  · simp [hlt, hlt.ne]
  · simp
  · have hdiff : i - 16 - 1 < 47 := by omega
    have hsum : 17 + (i - 16 - 1) = i := by omega
    simp [hgt.not_gt, hgt.ne', hdiff, hsum, show ¬ i - 16 < 1 by omega]

/-- The loop over the I/O APICs masks the pins of those it goes through. -/
theorem maskEach_spec {as : List ManagedIoApic}
    (hpins : ∀ a ∈ as, a.ioapic.maxEntries.toNat ≤ 120)
    (hdistinct : ∀ a ∈ as, ∀ b ∈ as, a.baseAddr = b.baseAddr → a = b) (devices : IoDevices) :
    ∃ devices', IoApicManager.maskEach devices as = some devices' ∧
      (∀ a ∈ as, ∀ pin < a.ioapic.maxEntries, entry (devices' a.baseAddr) pin = .masked) ∧
      ∀ addr, (∀ a ∈ as, a.baseAddr ≠ addr) → devices' addr = devices addr := by
  induction as generalizing devices with
  | nil => exact ⟨devices, rfl, nofun, fun _ _ => rfl⟩
  | cons a as ih =>
      obtain ⟨d, hexec, hmasked⟩ := exec_maskAll (hpins a List.mem_cons_self) (devices a.baseAddr)
      obtain ⟨devices', hrest, hothers, hframe⟩ :=
        ih (fun b hb => hpins b (List.mem_cons_of_mem _ hb))
          (fun b hb c hc => hdistinct b (List.mem_cons_of_mem _ hb) c (List.mem_cons_of_mem _ hc))
          (Function.update devices a.baseAddr d)
      refine ⟨devices', ?_, ?_, ?_⟩
      · simp only [IoApicManager.maskEach, IoDevices.exec, hexec, Option.bind_some, hrest]
      · intro b hb pin hpin
        by_cases hbas : b ∈ as
        · exact hothers b hbas pin hpin
        · obtain rfl : b = a := (List.mem_cons.mp hb).resolve_right hbas
          have hlast : ∀ c ∈ as, c.baseAddr ≠ b.baseAddr := fun c hc heq =>
            hbas (hdistinct c (List.mem_cons_of_mem _ hc) b hb heq ▸ hc)
          rw [hframe _ hlast, Function.update_self]
          exact hmasked pin hpin
      · intro addr haddr
        obtain ⟨hne, haddr⟩ := List.forall_mem_cons.mp haddr
        rw [hframe addr haddr, Function.update_of_ne hne.symm]

/-- Every operation does to the devices what it is to do to the map, and
nothing at all if there is nothing to do. -/
theorem Represents.step (hready : Ready apics) {percpus : PerCpus}
    (hids : ∀ c cpu, percpus.getCpu c = some cpu → cpu.apicId.toNat < 256)
    (h : Represents apics devices map) (op : Op) :
    let apicId := fun c => (percpus.getCpu c).map fun cpu => cpu.apicId.toNat
    ∃ devices', InterruptRouting.step ⟨devices, ⟨apics⟩, percpus⟩ op =
        some ⟨devices', ⟨apics⟩, percpus⟩ ∧
      Represents apics devices' (map.step (covered apics) apicId op) ∧
      (op.Ignored (covered apics) apicId → devices' = devices) := by
  intro apicId
  have hroute : ∀ (gsi : BitVec 32) (vector dest : BitVec 8),
      ∃ devices', (IoApicManager.mk apics).routeGsi devices gsi vector dest = some devices' ∧
        Represents apics devices' (if covered apics gsi then
          Function.update map gsi (routed vector dest.toNat) else map) ∧
        (covered apics gsi = false → devices' = devices) := by
    intro gsi vector dest
    rw [← simple_eq_routed]
    exact h.onGsi hready (f := fun _ => .simple vector dest)
      fun ioapic d hpin => exec_writeRedirection hpin _
  have hmask : ∀ (gsi : BitVec 32) (mask : Bool), ∃ devices',
      (IoApicManager.mk apics).onGsi devices gsi
          (fun ioapic => ioapic.updateMask mask (ioapic.pinOf gsi)) = some devices' ∧
        Represents apics devices' (if covered apics gsi then
          Function.update map gsi (withMask (map gsi) mask) else map) ∧
        (covered apics gsi = false → devices' = devices) := by
    intro gsi mask
    rw [← setMasked_eq_withMask]
    exact h.onGsi hready (f := fun e => e.setMasked mask)
      fun ioapic d hpin => exec_updateMask hpin mask
  cases op with
  | routeIrq gsi vector core =>
      cases hcpu : percpus.getCpu core.toNat with
      | none =>
          refine ⟨devices, ?_, ?_, fun _ => rfl⟩
          · simp only [InterruptRouting.step, hcpu, Option.map_some]
          · simp only [InterruptMap.step, apicId, hcpu, Option.map_none]
            exact h
      | some cpu =>
          have hid : (cpu.apicId.setWidth 8).toNat = cpu.apicId.toNat := by
            rw [BitVec.toNat_setWidth, Nat.mod_eq_of_lt (hids _ cpu hcpu)]
          obtain ⟨devices', hrun, hrep, hsame⟩ := hroute gsi vector (cpu.apicId.setWidth 8)
          rw [hid] at hrep
          refine ⟨devices', ?_, ?_, fun hignored => ?_⟩
          · simp only [InterruptRouting.step, hcpu, hrun, Option.map_some]
          · simp only [InterruptMap.step, apicId, hcpu, Option.map_some]
            exact hrep
          · simp only [Op.Ignored, apicId, hcpu, Option.map_some, reduceCtorEq, or_false]
              at hignored
            exact hsame hignored
  | routeGsi gsi vector dest =>
      obtain ⟨devices', hrun, hrep, hsame⟩ := hroute gsi vector dest
      exact ⟨devices', by simp only [InterruptRouting.step, hrun, Option.map_some], hrep, hsame⟩
  | maskIrq gsi =>
      obtain ⟨devices', hrun, hrep, hsame⟩ := hmask gsi true
      exact ⟨devices', by simp only [InterruptRouting.step, maskIrq, hrun, Option.map_some], hrep,
        hsame⟩
  | unmaskIrq gsi =>
      obtain ⟨devices', hrun, hrep, hsame⟩ := hmask gsi false
      exact ⟨devices', by simp only [InterruptRouting.step, unmaskIrq, hrun, Option.map_some],
        hrep, hsame⟩
  | maskAll =>
      obtain ⟨devices', hrun, hmasked, -⟩ := maskEach_spec hready.pins hready.distinct devices
      refine ⟨devices', ?_, fun a ha pin hpin => hmasked a ha pin hpin, False.elim⟩
      simp only [InterruptRouting.step, IoApicManager.maskAll, hrun, Option.map_some]

/-! ### Setting up -/

theorem toNat_reported {d : IoDevice} (h : reported d ≤ 120) :
    (BitVec.ofNat 8 (reported d)).toNat = reported d := by
  rw [BitVec.toNat_ofNat, Nat.mod_eq_of_lt (by omega)]

/-- A new driver knows how many entries its device reports. -/
theorem exec_new (gsiBase : BitVec 32) (d : IoDevice) :
    (IoApic.new gsiBase).exec d =
      ({ d with latch := regIoapicver }, some ⟨gsiBase, BitVec.ofNat 8 (reported d)⟩) := by
  have hmax : ((d.regs regIoapicver >>> 16) &&& 0xFF).setWidth 8 + 1 =
      BitVec.ofNat 8 (reported d) := by
    rw [reported, BitVec.ofNat_add, BitVec.ofNat_toNat]
    rfl
  show (_, some (IoApic.mk gsiBase _)) = _
  rw [hmax]

/-- `init_io_apics` sets up a driver for every device, with all entries masked. -/
theorem initIoApics_spec (infos : List MadtIoApic) (devices : IoDevices) (manager : IoApicManager)
    (hdistinct : (infos.map MadtIoApic.address).Nodup)
    (hpins : ∀ info ∈ infos, reported (devices info.address) ≤ 120) :
    ∃ devices', initIoApics devices manager infos =
        some (devices', ⟨manager.ioapics ++ infos.map (managed devices)⟩) ∧
      (∀ a ∈ infos.map (managed devices), ∀ pin < a.ioapic.maxEntries,
        entry (devices' a.baseAddr) pin = .masked) ∧
      ∀ addr ∉ infos.map MadtIoApic.address, devices' addr = devices addr := by
  induction infos generalizing devices manager with
  | nil => exact ⟨devices, by simp [initIoApics], by simp, fun _ _ => rfl⟩
  | cons info infos ih =>
      obtain ⟨hfirst, hrest⟩ := List.nodup_cons.mp hdistinct
      obtain ⟨hpin, hpins⟩ := List.forall_mem_cons.mp hpins
      have hmax : (managed devices info).ioapic.maxEntries.toNat ≤ 120 := by
        rw [managed, toNat_reported hpin]
        exact hpin
      obtain ⟨d, hmask, hmasked⟩ := exec_maskAll hmax
        { devices info.address with latch := regIoapicver }
      -- the device is set up in two steps, the others stay as they are
      have hothers : ∀ other ∈ infos,
          Function.update devices info.address d other.address = devices other.address := by
        intro other hother
        apply Function.update_of_ne
        intro heq
        exact hfirst (heq ▸ List.mem_map_of_mem hother)
      have hsame : infos.map (managed (Function.update devices info.address d)) =
          infos.map (managed devices) := by
        apply List.map_congr_left
        intro other hother
        rw [managed, managed, hothers other hother]
      obtain ⟨devices', hinit, hall, hframe⟩ := ih (Function.update devices info.address d)
        ⟨manager.ioapics ++ [managed devices info]⟩ hrest
        fun other hother => by rw [hothers other hother]; exact hpins other hother
      rw [hsame] at hinit hall
      refine ⟨devices', ?_, ?_, ?_⟩
      · rw [initIoApics]
        simp only [IoDevices.exec, exec_new, Option.bind_some, Function.update_self]
        rw [show (⟨info.gsiBase, BitVec.ofNat 8 (reported (devices info.address))⟩ : IoApic) =
          (managed devices info).ioapic from rfl, hmask]
        simp only [Option.bind_some, Function.update_idem]
        rw [show (⟨info.address, (managed devices info).ioapic⟩ : ManagedIoApic) =
          managed devices info from rfl, hinit]
        simp
      · rw [List.map_cons, List.forall_mem_cons]
        refine ⟨fun pin hpin => ?_, hall⟩
        rw [show (managed devices info).baseAddr = info.address from rfl, hframe _ hfirst,
          Function.update_self]
        exact hmasked pin hpin
      · intro addr haddr
        rw [List.map_cons, List.mem_cons, not_or] at haddr
        rw [hframe addr haddr.2, Function.update_of_ne haddr.1]

section

variable {infos : List MadtIoApic}

theorem Hardware.toNat_maxEntries (hw : Hardware devices infos) {info : MadtIoApic}
    (h : info ∈ infos) :
    (managed devices info).ioapic.maxEntries.toNat = reported (devices info.address) :=
  toNat_reported (hw.pins info h)

theorem Hardware.ready (hw : Hardware devices infos)
    (hfits : ∀ info ∈ infos, info.gsiBase.toNat + reported (devices info.address) < 2 ^ 32) :
    Ready (infos.map (managed devices)) where
  distinct a ha b hb heq := by
    obtain ⟨info, hinfo, rfl⟩ := List.mem_map.mp ha
    obtain ⟨info', hinfo', rfl⟩ := List.mem_map.mp hb
    rw [List.inj_on_of_nodup_map hw.distinct hinfo hinfo' heq]
  pins a ha := by
    obtain ⟨info, hinfo, rfl⟩ := List.mem_map.mp ha
    rw [hw.toNat_maxEntries hinfo]
    exact hw.pins info hinfo
  fits a ha := by
    obtain ⟨info, hinfo, rfl⟩ := List.mem_map.mp ha
    rw [hw.toNat_maxEntries hinfo]
    exact hfits info hinfo
  disjoint a ha b hb gsi hcovers hcovers' := by
    obtain ⟨info, hinfo, rfl⟩ := List.mem_map.mp ha
    obtain ⟨info', hinfo', rfl⟩ := List.mem_map.mp hb
    rw [covers_iff, hw.toNat_maxEntries hinfo] at hcovers
    rw [covers_iff, hw.toNat_maxEntries hinfo'] at hcovers'
    by_contra hne
    have hneq : info ≠ info' := fun heq => hne (heq ▸ rfl)
    have hsymm : Std.Symm fun a b : MadtIoApic =>
        a.gsiBase.toNat + reported (devices a.address) ≤ b.gsiBase.toNat ∨
          b.gsiBase.toNat + reported (devices b.address) ≤ a.gsiBase.toNat :=
      ⟨fun _ _ => Or.symm⟩
    have hranges := hw.disjoint.forall hinfo hinfo' hneq
    simp only [managed] at hcovers hcovers'
    omega

end

/-! ### Runs -/

/-- The map after a sequence of operations, all entries masked at first. -/
def InterruptMap.after (covered : BitVec 32 → Bool) (apicId : ℕ → Option ℕ) (ops : List Op) :
    InterruptMap :=
  ops.foldl (InterruptMap.step covered apicId) fun _ => .masked

/-- **The I/O APICs are the map.** `init_io_apics` sets up a driver for each of
them; and for whatever cores are registered with APIC ids below 256, every
sequence of operations runs to its end, every entry then reads back as the map
has it, and a further operation that there is nothing to do for changes
nothing. -/
def Refines (devices : IoDevices) (infos : List MadtIoApic) : Prop :=
  let apics := infos.map (managed devices)
  ∃ devices₀, initIoApics devices ⟨[]⟩ infos = some (devices₀, ⟨apics⟩) ∧
    ∀ percpus : PerCpus, (∀ c cpu, percpus.getCpu c = some cpu → cpu.apicId.toNat < 256) →
      let apicId := fun c => (percpus.getCpu c).map fun cpu => cpu.apicId.toNat
      ∀ ops, ∃ s, run step ⟨devices₀, ⟨apics⟩, percpus⟩ ops = some s ∧
        (∀ a ∈ apics, ∀ pin < a.ioapic.maxEntries,
          ((a.ioapic.readRedirection pin).exec (s.devices a.baseAddr)).2 =
            some (InterruptMap.after (covered apics) apicId ops
              (a.ioapic.gsiBase + pin.setWidth 32))) ∧
        ∀ op : Op, op.Ignored (covered apics) apicId → step s op = some s

theorem Represents.run (hready : Ready apics) {percpus : PerCpus}
    (hids : ∀ c cpu, percpus.getCpu c = some cpu → cpu.apicId.toNat < 256)
    (h : Represents apics devices map) (ops : List Op) :
    ∃ devices', Machine.run InterruptRouting.step ⟨devices, ⟨apics⟩, percpus⟩ ops =
        some ⟨devices', ⟨apics⟩, percpus⟩ ∧
      Represents apics devices' (ops.foldl (InterruptMap.step (covered apics)
        fun c => (percpus.getCpu c).map fun cpu => cpu.apicId.toNat) map) := by
  induction ops generalizing devices map with
  | nil => exact ⟨devices, rfl, h⟩
  | cons op ops ih =>
      obtain ⟨m, hstep, hm, -⟩ := h.step hready hids op
      obtain ⟨devices', hrun, hrep⟩ := ih hm
      exact ⟨devices', by rw [run_cons, hstep, Option.bind_some, hrun], hrep⟩

/-- In an I/O APIC whose range ends at `2 ^ 32` nothing is found for the last
GSI, since the end of the range is computed to be 0. -/
theorem findForGsi_last (hfits : ∀ a ∈ apics,
      a.ioapic.gsiBase.toNat + a.ioapic.maxEntries.toNat ≤ 2 ^ 32)
    (hgsi : gsi.toNat = 2 ^ 32 - 1) : (IoApicManager.mk apics).findForGsi gsi = none := by
  rw [IoApicManager.findForGsi, List.find?_eq_none]
  intro a ha hrange
  rw [Bool.and_eq_true, decide_eq_true_iff, decide_eq_true_iff, BitVec.lt_def, BitVec.toNat_add,
    BitVec.toNat_setWidth] at hrange
  have hfit := hfits a ha
  have hmax := a.ioapic.maxEntries.isLt
  omega

/-- A GSI that is the last there is cannot be routed. -/
theorem not_refines_of_last {infos : List MadtIoApic} (hw : Hardware devices infos)
    {info : MadtIoApic} (hinfo : info ∈ infos)
    (hge : ¬ info.gsiBase.toNat + reported (devices info.address) < 2 ^ 32) :
    ¬ Refines devices infos := by
  obtain ⟨devices₀, hinit, hmasked, -⟩ :=
    initIoApics_spec infos devices ⟨[]⟩ hw.distinct hw.pins
  rintro ⟨devices₁, hinit', hrefines⟩
  have hend := hw.fits info hinfo
  have hpins := hw.pins info hinfo
  have hmax := hw.toNat_maxEntries hinfo
  obtain rfl : devices₀ = devices₁ := by
    rw [hinit'] at hinit
    exact (Prod.mk.inj (Option.some.inj hinit)).1.symm
  -- the last pin, which is the last GSI
  let a := managed devices info
  let pin : BitVec 8 := BitVec.ofNat 8 (reported (devices info.address) - 1)
  let gsi : BitVec 32 := a.ioapic.gsiBase + pin.setWidth 32
  have ha : a ∈ infos.map (managed devices) := List.mem_map_of_mem hinfo
  have hreported : 0 < reported (devices info.address) := Nat.succ_pos _
  have hpinNat : pin.toNat = reported (devices info.address) - 1 := by
    rw [BitVec.toNat_ofNat, Nat.mod_eq_of_lt (by omega)]
  have hpin : pin < a.ioapic.maxEntries := by
    rw [BitVec.lt_def, hpinNat, hmax]
    omega
  have hall : ∀ b ∈ infos.map (managed devices),
      b.ioapic.gsiBase.toNat + b.ioapic.maxEntries.toNat ≤ 2 ^ 32 := by
    intro b hb
    obtain ⟨other, hother, rfl⟩ := List.mem_map.mp hb
    rw [hw.toNat_maxEntries hother]
    exact hw.fits other hother
  have hcovers : covers a gsi = true := covers_gsi hpin (hall a ha)
  have hgsi : gsi.toNat = 2 ^ 32 - 1 := by
    obtain ⟨hle, hlt⟩ := covers_iff.mp hcovers
    rw [BitVec.toNat_add, BitVec.toNat_setWidth, hpinNat] at hle ⊢
    rw [show a.ioapic.gsiBase = info.gsiBase from rfl] at hle ⊢
    omega
  have hnone := findForGsi_last hall hgsi
  obtain ⟨s, hrun, hread, -⟩ := hrefines .empty
    (fun c cpu hcpu => by simp [PerCpus.getCpu, PerCpus.empty] at hcpu)
    [.routeGsi gsi 0x20 0]
  have hs : s.devices = devices₀ := by
    simp only [run, step, IoApicManager.routeGsi, IoApicManager.onGsi, hnone, Option.map_some,
      Option.bind_some, Option.some.injEq] at hrun
    rw [← hrun]
  have hentry := hread a ha pin hpin
  have hcovered : covered (infos.map (managed devices)) gsi = true :=
    List.any_eq_true.mpr ⟨a, ha, hcovers⟩
  rw [exec_readRedirection hpin, hs, hmasked a ha pin hpin] at hentry
  simp only [InterruptMap.after, List.foldl_cons, List.foldl_nil, InterruptMap.step, hcovered,
    if_true, Option.some.injEq] at hentry
  rw [show a.ioapic.gsiBase + pin.setWidth 32 = gsi from rfl, Function.update_self] at hentry
  exact absurd hentry (by decide)

/-- The I/O APIC layer refines the map exactly if every range ends before
`2 ^ 32`. -/
theorem refines_interrupt_map_iff (devices : IoDevices) (infos : List MadtIoApic)
    (hw : Hardware devices infos) :
    Refines devices infos ↔
      ∀ info ∈ infos, info.gsiBase.toNat + reported (devices info.address) < 2 ^ 32 := by
  constructor
  · intro hrefines info hinfo
    by_contra hge
    exact not_refines_of_last hw hinfo hge hrefines
  · intro hfits
    obtain ⟨devices₀, hinit, hmasked, -⟩ :=
      initIoApics_spec infos devices ⟨[]⟩ hw.distinct hw.pins
    have hready := hw.ready hfits
    have hrep : Represents (infos.map (managed devices)) devices₀ fun _ => .masked := hmasked
    refine ⟨devices₀, by simpa using hinit, fun percpus hids ops => ?_⟩
    obtain ⟨devices', hrun, hafter⟩ := hrep.run hready hids ops
    refine ⟨_, hrun, fun a ha pin hpin => ?_, fun op hignored => ?_⟩
    · rw [exec_readRedirection hpin, hafter a ha pin hpin]
      rfl
    · obtain ⟨devices'', hstep, -, hsame⟩ := hafter.step hready hids op
      rw [hstep, hsame hignored]

/-- Devices that all report 24 entries. -/
def devices24 : IoDevices := fun _ => ⟨0, fun i => if i = regIoapicver then 0x170011 else 0⟩

theorem reported_devices24 (addr : BitVec 64) : reported (devices24 addr) = 24 := by
  simp [devices24, reported]

theorem hardware24 {infos : List MadtIoApic} (hdistinct : (infos.map MadtIoApic.address).Nodup)
    (hfits : ∀ info ∈ infos, info.gsiBase.toNat + 24 ≤ 2 ^ 32)
    (hdisjoint : infos.Pairwise fun a b =>
      a.gsiBase.toNat + 24 ≤ b.gsiBase.toNat ∨ b.gsiBase.toNat + 24 ≤ a.gsiBase.toNat) :
    Hardware devices24 infos where
  distinct := hdistinct
  pins _ _ := by rw [reported_devices24]; decide
  fits := by simpa only [reported_devices24] using hfits
  disjoint := by simpa only [reported_devices24] using hdisjoint

/-- Two I/O APICs, with the GSIs 0 to 23 and 24 to 47. -/
theorem refines_two_ioapics : Refines devices24 [⟨0xFEC00000, 0⟩, ⟨0xFEC01000, 24⟩] :=
  (refines_interrupt_map_iff devices24 [⟨0xFEC00000, 0⟩, ⟨0xFEC01000, 24⟩]
    (hardware24 (by decide) (by decide) (by decide))).mpr (by decide)

/-- An I/O APIC with the last 24 GSIs there are. -/
theorem last_gsi_not_routed :
    Hardware devices24 [⟨0xFEC00000, 0xFFFFFFE8⟩] ∧
      ¬ Refines devices24 [⟨0xFEC00000, 0xFFFFFFE8⟩] := by
  have hw : Hardware devices24 [⟨0xFEC00000, 0xFFFFFFE8⟩] :=
    hardware24 (by decide) (by decide) (by decide)
  exact ⟨hw, not_refines_of_last hw List.mem_cons_self (by decide)⟩

end InterruptRouting

end SmpNostd
