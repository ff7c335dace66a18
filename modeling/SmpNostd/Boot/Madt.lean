import Mathlib.Data.Fintype.Card
import Mathlib.Tactic.Common

/-!
The part of the ACPI MADT that the boot of the other cores reads
(`driver.rs`). The I/O APICs of the table are not part of it.
-/

namespace SmpNostd

/-- A local APIC discovered from the MADT. -/
structure MadtLocalApic where
  processorId : BitVec 8
  apicId : BitVec 8
  enabled : Bool
  deriving DecidableEq, Repr

/-- The local APICs of the MADT, the one of the boot processor included. -/
structure MadtInfo where
  localApics : List MadtLocalApic

/-- The APs to boot: the enabled local APICs, except for the boot
processor's. -/
def MadtInfo.enabledAps (madt : MadtInfo) (bspApicId : BitVec 32) : List MadtLocalApic :=
  madt.localApics.filter fun la => la.enabled && la.apicId.setWidth 32 != bspApicId

namespace MadtInfo

theorem length_le_of_nodup {ids : List (BitVec 8)} (h : ids.Nodup) : ids.length ≤ 256 := by
  have hnodup := h.map (f := BitVec.toFin) fun _ _ h => BitVec.toFin_inj.mp h
  simpa using hnodup.length_le_card

/-- An APIC id is a byte, so there are few APs; and the id of the boot processor, if
it is a byte too, is none of theirs. -/
theorem length_enabledAps_lt {madt : MadtInfo} {bspApicId : BitVec 32}
    (hnodup : ((madt.enabledAps bspApicId).map MadtLocalApic.apicId).Nodup)
    (h : bspApicId < 256) :
    (madt.enabledAps bspApicId).length < 256 := by
  have hbyte : (bspApicId.setWidth 8).setWidth 32 = bspApicId := by
    bv_omega
  have hnotMem : bspApicId.setWidth 8 ∉ (madt.enabledAps bspApicId).map MadtLocalApic.apicId := by
    intro hmem
    obtain ⟨la, hla, hid⟩ := List.mem_map.mp hmem
    have hkept := (List.mem_filter.mp hla).2
    rw [hid, hbyte, bne_self_eq_false, Bool.and_false] at hkept
    cases hkept
  have hle := length_le_of_nodup (List.nodup_cons.mpr ⟨hnotMem, hnodup⟩)
  rwa [List.length_cons, List.length_map] at hle

end MadtInfo

end SmpNostd
