import SmpNostd.Apic.IoApic
import SmpNostd.Lib.Bits

/-!
The redirection table of one I/O APIC.

Run alone, the methods of the driver are operations on a table of 64-bit
entries, as long as there are at most 120 of them, so that no register index
wraps. While a method runs, an entry is for a moment made up of a half of the
old and a half of the new one: the low half, which has the mask and the vector,
is written first, and the high half, which has the destination, second.
-/

namespace SmpNostd

open Mmio

namespace RedirectionEntry

/-- A masked (disabled) entry. -/
def masked : RedirectionEntry := ⟨maskBit⟩

/-- Check if the entry is masked. -/
def isMasked (entry : RedirectionEntry) : Bool := entry.raw &&& maskBit != 0

/-- The half that is in the low register of the pin. -/
def low (entry : RedirectionEntry) : BitVec 32 := entry.raw.setWidth 32

/-- The half that is in the high register of the pin. -/
def high (entry : RedirectionEntry) : BitVec 32 := (entry.raw >>> 32).setWidth 32

end RedirectionEntry

namespace IoApic

open RedirectionEntry

/-- The IOAPICVER register. -/
def regIoapicver : BitVec 8 := 0x01

/-- A new driver: the number of entries is read from the device. -/
def new (gsiBase : BitVec 32) : IoProg IoApic := do
  let ver ← readReg regIoapicver
  return { gsiBase := gsiBase, maxEntries := ((ver >>> 16) &&& 0xFF).setWidth 8 + 1 }

/-- Write a masked entry for each of the pins, in order. -/
def maskPins (apic : IoApic) : List (BitVec 8) → IoProg Unit
  | [] => return ()
  | irq :: pins => do
      apic.writeRedirection irq masked
      apic.maskPins pins

/-- The pins `0..max_entries`. -/
def pins (apic : IoApic) : List (BitVec 8) :=
  (List.range apic.maxEntries.toNat).map (BitVec.ofNat 8)

/-- Mask all pins. -/
def maskAll (apic : IoApic) : IoProg Unit := apic.maskPins apic.pins

/-! ### Halves of entries -/

@[simp] theorem low_entryOf (low high : BitVec 32) : (entryOf low high).low = low :=
  Bits.setWidth_join (by decide) low high

@[simp] theorem high_entryOf (low high : BitVec 32) : (entryOf low high).high = high :=
  Bits.setWidth_ushiftRight_join (by decide) low high

@[simp] theorem entryOf_low_high (e : RedirectionEntry) : entryOf e.low e.high = e :=
  congrArg RedirectionEntry.mk (Bits.join_halves (by decide) e.raw)

theorem entryOf_inj {low low' high high' : BitVec 32} :
    entryOf low high = entryOf low' high' ↔ low = low' ∧ high = high' := by
  constructor
  · intro h
    constructor
    · simpa using congrArg RedirectionEntry.low h
    · simpa using congrArg RedirectionEntry.high h
  · rintro ⟨rfl, rfl⟩
    rfl

theorem isMasked_eq (e : RedirectionEntry) : e.isMasked = e.raw.getLsbD 16 :=
  Bits.and_twoPow_ne_zero (by decide) e.raw

/-- The mask is in the low half. -/
theorem isMasked_entryOf (e : RedirectionEntry) (high : BitVec 32) :
    (entryOf e.low high).isMasked = e.isMasked := by
  rw [isMasked_eq, isMasked_eq]
  simp [entryOf, RedirectionEntry.low]

theorem isMasked_simple (vector dest : BitVec 8) : (simple vector dest).isMasked = false := by
  rw [isMasked_eq]
  simp [simple, RedirectionEntry.new, delmodeFixed, destmodePhysical, polarityHigh, triggerEdge]

/-! ### The methods, run alone -/

variable {apic : IoApic} {d : IoDevice} {irq : BitVec 8}

theorem regBase_even (irq : BitVec 8) : (regBase irq).toNat % 2 = 0 := by
  simp only [regBase, regRedtblBase, BitVec.toNat_add, BitVec.toNat_mul, BitVec.ofNat_eq_ofNat,
    BitVec.toNat_ofNat]
  omega

/-- A low register is never a high one, even if the index wraps. -/
theorem regBase_ne_regBase_add_one (irq irq' : BitVec 8) : regBase irq ≠ regBase irq' + 1 := by
  intro h
  have hnat := congrArg BitVec.toNat h
  have heven := regBase_even irq
  have heven' := regBase_even irq'
  simp only [BitVec.toNat_add, BitVec.ofNat_eq_ofNat, BitVec.toNat_ofNat] at hnat
  omega

/-- A device with another entry for a pin. -/
def writeEntry (d : IoDevice) (irq : BitVec 8) (e : RedirectionEntry) : IoDevice where
  latch := regBase irq + 1
  regs := Function.update (Function.update d.regs (regBase irq) e.low) (regBase irq + 1) e.high

theorem exec_writeRedirection (h : irq < apic.maxEntries) (e : RedirectionEntry) :
    (apic.writeRedirection irq e).exec d = (writeEntry d irq e, some ()) := by
  rw [writeRedirection, if_pos h]
  rfl

theorem exec_readRedirection (h : irq < apic.maxEntries) :
    (apic.readRedirection irq).exec d =
      ({ d with latch := regBase irq + 1 }, some (entry d irq)) := by
  rw [readRedirection, if_pos h]
  rfl

theorem exec_updateMask (h : irq < apic.maxEntries) (mask : Bool) :
    (apic.updateMask mask irq).exec d =
      (writeEntry d irq ((entry d irq).setMasked mask), some ()) := by
  rw [updateMask, Prog.exec_bind_of_eq_some (exec_readRedirection h), exec_writeRedirection h]
  rfl

theorem entry_writeEntry_self (e : RedirectionEntry) : entry (writeEntry d irq e) irq = e := by
  have hne := regBase_ne_regBase_add_one irq irq
  simp only [entry, writeEntry, Function.update_self, Function.update_of_ne hne, entryOf_low_high]

theorem regs_writeEntry_of_notMem {i : BitVec 8} (hi : i ∉ pinRegs irq) (e : RedirectionEntry) :
    (writeEntry d irq e).regs i = d.regs i := by
  have hlow : i ≠ regBase irq := fun heq => hi (Or.inl heq)
  have hhigh : i ≠ regBase irq + 1 := fun heq => hi (Or.inr heq)
  simp only [writeEntry, Function.update_of_ne hhigh, Function.update_of_ne hlow]

theorem entry_writeEntry_of_ne {irq' : BitVec 8} (h : irq.toNat < 120) (h' : irq'.toNat < 120)
    (hne : irq' ≠ irq) (e : RedirectionEntry) :
    entry (writeEntry d irq e) irq' = entry d irq' :=
  entry_congr fun _ hi => regs_writeEntry_of_notMem
    (Set.disjoint_left.mp (pinRegs_disjoint h' h hne) hi) e

/-- Masking a pin changes bit 16 and no other. -/
theorem getLsbD_setMasked (e : RedirectionEntry) (mask : Bool) (i : ℕ) :
    (e.setMasked mask).raw.getLsbD i = if i = 16 then mask else e.raw.getLsbD i := by
  have hmask : maskBit = BitVec.twoPow 64 16 := rfl
  cases mask with
  | true => simp only [setMasked, if_true, hmask, Bits.getLsbD_set (by decide : 16 < 64)]
  | false =>
      simp only [setMasked, Bool.false_eq_true, if_false, hmask,
        Bits.getLsbD_clear (by decide : 16 < 64)]

theorem mem_pins : irq ∈ apic.pins ↔ irq < apic.maxEntries := by
  simp only [pins, List.mem_map, List.mem_range, BitVec.lt_def]
  constructor
  · rintro ⟨i, hi, rfl⟩
    exact (Nat.mod_le i _).trans_lt hi
  · exact fun h => ⟨irq.toNat, h, by simp⟩

/-- The loop of `mask_all` masks the pins it goes through, and changes no
register of another pin. -/
theorem exec_maskPins {pins : List (BitVec 8)} (hpins : ∀ irq ∈ pins, irq < apic.maxEntries)
    (hmax : apic.maxEntries.toNat ≤ 120) (d : IoDevice) :
    ∃ d', (apic.maskPins pins).exec d = (d', some ()) ∧
      ∀ irq : BitVec 8, irq.toNat < 120 →
        entry d' irq = if irq ∈ pins then masked else entry d irq := by
  induction pins generalizing d with
  | nil => exact ⟨d, rfl, fun irq _ => by simp⟩
  | cons irq' pins ih =>
      obtain ⟨hirq', hpins⟩ := List.forall_mem_cons.mp hpins
      have hlt : irq'.toNat < 120 := Nat.lt_of_lt_of_le hirq' hmax
      obtain ⟨d', hexec, hentry⟩ := ih hpins (writeEntry d irq' masked)
      refine ⟨d', ?_, fun irq hirq => ?_⟩
      · rw [maskPins, Prog.exec_bind_of_eq_some (exec_writeRedirection hirq' masked), hexec]
      · rw [hentry irq hirq]
        by_cases hmem : irq ∈ pins
        · simp [hmem]
        · by_cases heq : irq = irq'
          · subst heq
            simp [hmem, entry_writeEntry_self]
          · simp [hmem, heq, entry_writeEntry_of_ne hlt hirq heq]

theorem exec_maskAll (hmax : apic.maxEntries.toNat ≤ 120) (d : IoDevice) :
    ∃ d', apic.maskAll.exec d = (d', some ()) ∧
      ∀ irq < apic.maxEntries, entry d' irq = masked := by
  obtain ⟨d', hexec, hentry⟩ := exec_maskPins (fun _ => mem_pins.mp) hmax d
  refine ⟨d', hexec, fun irq hirq => ?_⟩
  rw [hentry irq (Nat.lt_of_lt_of_le hirq hmax), if_pos (mem_pins.mpr hirq)]

/-! ### Half-written entries -/

/-- While the program runs, the entry of the pin is masked, or it is the whole
entry it was before or the whole of the new one. -/
def NeverHalfWritten (irq : BitVec 8) (new : RedirectionEntry) (d : IoDevice)
    (p : IoProg Unit) : Prop :=
  ∀ m ∈ p.states d, (entry m irq).isMasked = true ∨ entry m irq = entry d irq ∨
    entry m irq = new

/-- A device with another low half of the entry for a pin. -/
def writeLow (d : IoDevice) (irq : BitVec 8) (e : RedirectionEntry) : IoDevice where
  latch := regBase irq
  regs := Function.update d.regs (regBase irq) e.low

theorem states_writeRedirection (h : irq < apic.maxEntries) (e : RedirectionEntry) :
    (apic.writeRedirection irq e).states d =
      [d, { d with latch := regBase irq }, writeLow d irq e,
        { writeLow d irq e with latch := regBase irq + 1 }, writeEntry d irq e] := by
  rw [writeRedirection, if_pos h]
  rfl

theorem entry_setLatch (d : IoDevice) (i irq : BitVec 8) :
    entry { d with latch := i } irq = entry d irq := rfl

theorem entry_writeLow (e : RedirectionEntry) :
    entry (writeLow d irq e) irq = entryOf e.low (entry d irq).high := by
  have hne := regBase_ne_regBase_add_one irq irq
  simp only [entry, writeLow, Function.update_self, Function.update_of_ne hne.symm, high_entryOf]

/-- Writing an entry shows half of it, unless it is masked or differs from the
one before in one half only. -/
theorem neverHalfWritten_writeRedirection_iff (h : irq < apic.maxEntries)
    (e : RedirectionEntry) :
    NeverHalfWritten irq e d (apic.writeRedirection irq e) ↔
      e.isMasked = true ∨ e.low = (entry d irq).low ∨ e.high = (entry d irq).high := by
  have hhalf : (entry (writeLow d irq e) irq).isMasked = true ∨
      entry (writeLow d irq e) irq = entry d irq ∨ entry (writeLow d irq e) irq = e ↔
      e.isMasked = true ∨ e.low = (entry d irq).low ∨ e.high = (entry d irq).high := by
    have hold : entryOf e.low (entry d irq).high = entry d irq ↔ e.low = (entry d irq).low := by
      conv_lhs => rhs; rw [← entryOf_low_high (entry d irq)]
      rw [entryOf_inj, and_iff_left rfl]
    have hnew : entryOf e.low (entry d irq).high = e ↔ e.high = (entry d irq).high := by
      conv_lhs => rhs; rw [← entryOf_low_high e]
      rw [entryOf_inj, and_iff_right rfl, eq_comm]
    rw [entry_writeLow, isMasked_entryOf, hold, hnew]
  rw [NeverHalfWritten, states_writeRedirection h]
  simp only [List.forall_mem_cons, List.not_mem_nil, false_imp_iff, implies_true, and_true,
    entry_setLatch, entry_writeEntry_self, hhalf, true_or, or_true, true_and, and_self]

/-- The mask is in the low half, so the destination stays. -/
theorem high_setMasked (e : RedirectionEntry) (mask : Bool) :
    (e.setMasked mask).high = e.high := by
  apply BitVec.eq_of_getLsbD_eq
  intro i hi
  have hne : 32 + i ≠ 16 := by omega
  simp only [RedirectionEntry.high, BitVec.getLsbD_setWidth, BitVec.getLsbD_ushiftRight,
    getLsbD_setMasked, if_neg hne]

theorem neverHalfWritten_updateMask (h : irq < apic.maxEntries) (mask : Bool) :
    NeverHalfWritten irq ((entry d irq).setMasked mask) d (apic.updateMask mask irq) := by
  refine Prog.forall_states_bind ?_ fun e he => ?_
  · rw [readRedirection, if_pos h]
    intro m hm
    have hregs : m.regs = d.regs := by
      simp only [readReg, Bind.bind, Prog.bind, pure, Prog.states, List.mem_cons,
        List.not_mem_nil, or_false] at hm
      rcases hm with rfl | rfl | rfl | rfl | rfl <;> rfl
    exact .inr (.inl (entry_congr fun i _ => by rw [hregs]))
  · rw [exec_readRedirection h] at he ⊢
    obtain rfl := Option.some.inj he
    exact (neverHalfWritten_writeRedirection_iff h _).mpr (.inr (.inr (high_setMasked _ mask)))

/-- Whichever pin a masked entry is written for, the entry of `irq` is masked
or stays as it is. -/
theorem masked_or_kept (irq irq' : BitVec 8) {m : IoDevice}
    (hm : m ∈ (apic.writeRedirection irq' masked).states d) :
    (entry m irq).isMasked = true ∨ entry m irq = entry d irq := by
  have hmasked : m.regs (regBase irq) = masked.low → (entry m irq).isMasked = true := by
    intro hlow
    rw [entry, hlow, isMasked_entryOf]
    rfl
  have hkept : m.regs (regBase irq) = d.regs (regBase irq) →
      m.regs (regBase irq + 1) = d.regs (regBase irq + 1) → entry m irq = entry d irq := by
    intro hlow hhigh
    rw [entry, entry, hlow, hhigh]
  by_cases hirq : irq' < apic.maxEntries
  · rw [states_writeRedirection hirq] at hm
    have hcross := regBase_ne_regBase_add_one irq irq'
    have hcross' := (regBase_ne_regBase_add_one irq' irq).symm
    by_cases hsame : regBase irq = regBase irq'
    · simp only [List.mem_cons, List.not_mem_nil, or_false] at hm
      rcases hm with rfl | rfl | rfl | rfl | rfl
      · exact .inr rfl
      · exact .inr rfl
      · exact .inl (hmasked (by simp [writeLow, hsame]))
      · exact .inl (hmasked (by simp [writeLow, hsame]))
      · exact .inl (hmasked (by simp [writeEntry, hsame]))
    · have hhigh : regBase irq + 1 ≠ regBase irq' + 1 := fun heq => hsame (by simpa using heq)
      simp only [List.mem_cons, List.not_mem_nil, or_false] at hm
      rcases hm with rfl | rfl | rfl | rfl | rfl
      · exact .inr rfl
      · exact .inr rfl
      · exact .inr (hkept (by simp only [writeLow, Function.update_of_ne hsame])
          (by simp only [writeLow, Function.update_of_ne hcross']))
      · exact .inr (hkept (by simp only [writeLow, Function.update_of_ne hsame])
          (by simp only [writeLow, Function.update_of_ne hcross']))
      · exact .inr (hkept
          (by simp only [writeEntry, Function.update_of_ne hcross, Function.update_of_ne hsame])
          (by simp only [writeEntry, Function.update_of_ne hhigh, Function.update_of_ne hcross']))
  · rw [writeRedirection, if_neg hirq] at hm
    obtain rfl := List.mem_singleton.mp hm
    exact .inr rfl

theorem neverHalfWritten_maskPins (irq : BitVec 8) (pins : List (BitVec 8)) (d : IoDevice) :
    NeverHalfWritten irq masked d (apic.maskPins pins) := by
  suffices hall : ∀ m ∈ (apic.maskPins pins).states d,
      (entry m irq).isMasked = true ∨ entry m irq = entry d irq from
    fun m hm => (hall m hm).imp_right .inl
  induction pins generalizing d with
  | nil =>
      intro m hm
      obtain rfl := List.mem_singleton.mp hm
      exact .inr rfl
  | cons irq' pins ih =>
      refine Prog.forall_states_bind (fun m hm => masked_or_kept irq irq' hm) fun _ _ m hm => ?_
      -- what holds after the write of one pin is passed on along the others
      rcases ih _ m hm with hmask | hkept
      · exact .inl hmask
      · rw [hkept]
        exact masked_or_kept irq irq' (Prog.exec_mem_states d _)

/-- **When an entry is half-written.** For every pin and every old and new
entry, `write_redirection` (and so `route_irq`) shows nothing but whole or
masked entries exactly if the new entry is masked, or has the low half or the
high half of the old one. Masking and unmasking a pin keep the high half, and
`mask_all` writes masked entries, so they always do. -/
theorem never_half_written_iff (apic : IoApic) (d : IoDevice) (irq : BitVec 8)
    (h : irq < apic.maxEntries) :
    (∀ e, NeverHalfWritten irq e d (apic.writeRedirection irq e) ↔
      e.isMasked = true ∨ e.low = (entry d irq).low ∨ e.high = (entry d irq).high) ∧
    (∀ gsi vector dest, apic.pinOf gsi = irq →
      (NeverHalfWritten irq (simple vector dest) d (apic.routeIrq gsi vector dest) ↔
        (simple vector dest).low = (entry d irq).low ∨
          (simple vector dest).high = (entry d irq).high)) ∧
    NeverHalfWritten irq ((entry d irq).setMasked true) d (apic.maskIrq irq) ∧
    NeverHalfWritten irq ((entry d irq).setMasked false) d (apic.unmaskIrq irq) ∧
    NeverHalfWritten irq masked d apic.maskAll := by
  refine ⟨fun e => neverHalfWritten_writeRedirection_iff h e, ?_,
    neverHalfWritten_updateMask h true, neverHalfWritten_updateMask h false,
    neverHalfWritten_maskPins irq apic.pins d⟩
  rintro gsi vector dest rfl
  rw [routeIrq, neverHalfWritten_writeRedirection_iff h, isMasked_simple]
  simp

/-- Pin 2 is masked, with destination 3. It may be routed to APIC 3, but not to
APIC 4. -/
theorem never_half_written_iff_pin_two :
    let apic : IoApic := ⟨0, 24⟩
    let d : IoDevice := ⟨0, fun i => if i = regBase 2 + 1 then 0x03000000 else 0x10000⟩
    NeverHalfWritten 2 (simple 0x21 3) d (apic.routeIrq 2 0x21 3) ∧
      ¬NeverHalfWritten 2 (simple 0x21 4) d (apic.routeIrq 2 0x21 4) ∧
      NeverHalfWritten 2 masked d apic.maskAll := by
  intro apic d
  obtain ⟨-, hroute, -, -, hmaskAll⟩ := never_half_written_iff apic d 2 (by decide)
  exact ⟨(hroute 2 0x21 3 (by decide)).mpr (by decide),
    fun hwhole => absurd ((hroute 2 0x21 4 (by decide)).mp hwhole) (by decide), hmaskAll⟩

/-- Pin 2 is masked, with destination 0, and is routed to APIC 3 with vector
0x21: for a moment it is unmasked, with the new vector and destination 0. -/
theorem route_irq_half_written :
    let apic : IoApic := ⟨0, 24⟩
    let d : IoDevice := ⟨0, fun i => if i = regBase 2 then 0x10000 else 0⟩
    (entry d 2).isMasked = true ∧ ¬NeverHalfWritten 2 (simple 0x21 3) d (apic.routeIrq 2 0x21 3) ∧
      ∃ m ∈ (apic.routeIrq 2 0x21 3).states d,
        entry m 2 = simple 0x21 0 ∧ (entry m 2).isMasked = false := by
  intro apic d
  obtain ⟨m, hm, hentry, hmask⟩ : ∃ m ∈ (apic.routeIrq 2 0x21 3).states d,
      entry m 2 = simple 0x21 0 ∧ (entry m 2).isMasked = false :=
    ⟨writeLow d 2 (simple 0x21 3),
      by rw [routeIrq, states_writeRedirection (by decide)]; simp [apic, pinOf], by decide, by decide⟩
  refine ⟨by decide, fun hall => ?_, m, hm, hentry, hmask⟩
  rcases hall m hm with hmasked | hold | hnew
  · rw [hmask] at hmasked
    cases hmasked
  · rw [hentry] at hold
    exact absurd hold (by decide)
  · rw [hentry] at hnew
    exact absurd hnew (by decide)

end IoApic

end SmpNostd
