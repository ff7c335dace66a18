import Mathlib.Data.List.Find
import SmpNostd.Apic.Manager

/-!
The arithmetic of the I/O APIC driver on what the hardware and the firmware report.

Three numbers are computed in the width of the fields they come from: the number
of entries and the indices of the registers in 8 bits, the end of a range of GSIs
in 32. Nothing is checked, so they are only right for values that are small enough.
-/

namespace SmpNostd

namespace IoApicArithmetic

open Mmio IoApic InterruptRouting

/-- The highest entry, in the version register. -/
def maxEntry (v : BitVec 32) : ℕ := ((v >>> 16) &&& 0xFF).toNat

/-- The driver that `IoApic::new` returns. -/
def created (d : IoDevice) (gsiBase : BitVec 32) : Option IoApic :=
  ((IoApic.new gsiBase).exec d).2

/-- The manager that a driver for each I/O APIC has been added to, in order. -/
def manager (devices : IoDevices) (infos : List MadtIoApic) : IoApicManager where
  ioapics := infos.filterMap fun info =>
    (created (devices info.address) info.gsiBase).map (ManagedIoApic.mk info.address)

/-- The driver of an I/O APIC that reports the version `v` computes what it is
meant to. -/
structure Exact (v : BitVec 32) (apic : IoApic) : Prop where
  max : apic.maxEntries.toNat = maxEntry v + 1
  low : ∀ irq < apic.maxEntries, (regBase irq).toNat = 0x10 + irq.toNat * 2
  high : ∀ irq < apic.maxEntries, (regBase irq + 1).toNat = 0x10 + irq.toNat * 2 + 1
  redtbl : ∀ irq < apic.maxEntries, ∀ index ∈ pinRegs irq, 0x10 ≤ index.toNat
  distinct : ∀ irq < apic.maxEntries, ∀ irq' < apic.maxEntries, irq ≠ irq' →
    Disjoint (pinRegs irq) (pinRegs irq')
  range : (apic.gsiBase + apic.maxEntries.setWidth 32).toNat =
    apic.gsiBase.toNat + apic.maxEntries.toNat

/-- The first I/O APIC whose pins include the GSI is the one that is found. -/
def FindsFirst (manager : IoApicManager) : Prop :=
  ∀ gsi, manager.findForGsi gsi = manager.ioapics.find? (covers · gsi)

variable {devices : IoDevices} {infos : List MadtIoApic} {v : BitVec 32} {apic : IoApic}

theorem created_eq (d : IoDevice) (gsiBase : BitVec 32) :
    created d gsiBase = some ⟨gsiBase, BitVec.ofNat 8 (maxEntry (d.regs regIoapicver) + 1)⟩ := by
  rw [created, exec_new]
  rfl

/-- With 120 entries at most, and the last pin below the last GSI, nothing
overflows. -/
theorem exact_of_lt (hmax : apic.maxEntries.toNat = maxEntry v + 1) (hpins : maxEntry v < 120)
    (hfits : apic.gsiBase.toNat + (maxEntry v + 1) < 2 ^ 32) : Exact v apic := by
  have hlt : ∀ irq < apic.maxEntries, irq.toNat < 120 := fun irq hirq => by
    rw [BitVec.lt_def] at hirq
    omega
  refine ⟨hmax, fun irq hirq => ?_, fun irq hirq => ?_, fun irq hirq index hindex => ?_,
    fun irq hirq irq' hirq' => pinRegs_disjoint (hlt irq hirq) (hlt irq' hirq'), ?_⟩
  · rw [toNat_regBase (hlt irq hirq)]
    omega
  · rw [toNat_regBase_add_one (hlt irq hirq)]
    omega
  · have hlow := toNat_regBase (hlt irq hirq)
    have hhigh := toNat_regBase_add_one (hlt irq hirq)
    obtain rfl | rfl := hindex <;> omega
  · exact toNat_rangeEnd (hmax ▸ hfits)

/-- Pin 120 has no index of 8 bits, and the end of the range none of 32 bits if
it is `2 ^ 32`. -/
theorem Exact.lt (h : Exact v apic) :
    maxEntry v < 120 ∧ apic.gsiBase.toNat + (maxEntry v + 1) < 2 ^ 32 := by
  constructor
  · by_contra hmany
    have hpin : (120 : BitVec 8) < apic.maxEntries := by
      have hmax := h.max
      rw [BitVec.lt_def]
      simp only [BitVec.ofNat_eq_ofNat, BitVec.toNat_ofNat]
      omega
    exact absurd (h.low 120 hpin) (by decide)
  · rw [← h.max, ← h.range]
    exact BitVec.isLt _

theorem findsFirst {manager : IoApicManager} (h : ∀ a ∈ manager.ioapics,
    a.ioapic.gsiBase.toNat + a.ioapic.maxEntries.toNat < 2 ^ 32) : FindsFirst manager := by
  intro gsi
  exact List.find?_congr fun a ha => inRange_eq_covers (h a ha)

/-! ### Which reports are computed with exactly -/

/-- Every number that is computed from the versions and the GSI bases is the
mathematical one exactly if each I/O APIC reports at most 120 entries and the
end of its range is less than `2 ^ 32`. -/
theorem arithmetic_exact_iff (devices : IoDevices) (infos : List MadtIoApic) :
    ((∀ info ∈ infos, ∃ apic, created (devices info.address) info.gsiBase = some apic ∧
        Exact ((devices info.address).regs regIoapicver) apic) ∧
      FindsFirst (manager devices infos)) ↔
    ∀ info ∈ infos, maxEntry ((devices info.address).regs regIoapicver) < 120 ∧
      info.gsiBase.toNat + (maxEntry ((devices info.address).regs regIoapicver) + 1) < 2 ^ 32 := by
  constructor
  · rintro ⟨hexact, -⟩ info hinfo
    obtain ⟨apic, hcreated, hapic⟩ := hexact info hinfo
    obtain rfl := Option.some.inj (hcreated.symm.trans (created_eq _ _))
    exact hapic.lt
  · intro hsmall
    have hmax : ∀ info ∈ infos,
        (BitVec.ofNat 8 (maxEntry ((devices info.address).regs regIoapicver) + 1)).toNat =
          maxEntry ((devices info.address).regs regIoapicver) + 1 := fun info hinfo => by
      have hlt := (hsmall info hinfo).1
      rw [BitVec.toNat_ofNat, Nat.mod_eq_of_lt (by omega)]
    refine ⟨fun info hinfo => ⟨_, created_eq _ _, ?_⟩, findsFirst fun a ha => ?_⟩
    · exact exact_of_lt (hmax info hinfo) (hsmall info hinfo).1 (hsmall info hinfo).2
    · obtain ⟨info, hinfo, hcreated⟩ := List.mem_filterMap.mp ha
      rw [created_eq, Option.map_some] at hcreated
      obtain rfl := Option.some.inj hcreated
      rw [hmax info hinfo]
      exact (hsmall info hinfo).2

/-- A device that reports 256 entries is taken to have none. -/
theorem entries_256_not_counted :
    let d : IoDevice := ⟨0, fun i => if i = regIoapicver then 0x00FF0020 else 0⟩
    ∃ apic, created d 0 = some apic ∧ apic.maxEntries = 0 ∧ maxEntry (d.regs regIoapicver) = 255 ∧
      ¬Exact (d.regs regIoapicver) apic := by
  intro d
  refine ⟨_, created_eq d 0, by decide, by decide, fun h => ?_⟩
  exact absurd h.lt.1 (by decide)

end IoApicArithmetic

end SmpNostd
