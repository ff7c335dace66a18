import SmpNostd.Apic.Registers

/-!
The local sources of interrupts (`init_bsp_apic` in `driver.rs`).

Each local source, such as the pins LINT0 and LINT1 or the timer, has an entry in the
local vector table, and raises no interrupt while the entry is masked. The controller
masks six of them when it sets up the local APIC of the BSP. They stay silent from
then on, until a call writes the entry of the source with the mask bit clear.
-/

namespace SmpNostd.ApicAccess

open Machine NestedCalls
open SmpNostd.LocalApic (regLvtTimer lvtMasked)

variable {D ε ι : Type} {dev : Device D ε} {entry : BitVec 32} {masked : D → Prop}
  {raised : D → ℕ}

/-- What a local APIC does with the entry of a source: the mask bit of the last value
written to it counts, unless the APIC has set the bit itself; a masked source raises
nothing. `raised` is how many interrupts the source has raised. -/
structure Masking (dev : Device D ε) (entry : BitVec 32) (masked : D → Prop)
    (raised : D → ℕ) : Prop where
  write_entry : ∀ d {value}, value.getLsbD 16 = true → masked (dev.write d entry value)
  write_other : ∀ {d offset} value, offset ≠ entry → masked d → masked (dev.write d offset value)
  write_raised : ∀ d offset value, raised (dev.write d offset value) = raised d
  baseWritten : ∀ {d} old new, masked d → masked (dev.baseWritten d old new)
  baseWritten_raised : ∀ d old new, raised (dev.baseWritten d old new) = raised d
  event : ∀ {d} e, masked d → masked (dev.event d e) ∧ raised (dev.event d e) = raised d

/-- A call does not unmask the source. -/
def LeavesMasked (entry : BitVec 32) : Label ι Call ε → Prop
  | .call _ c => ∀ value, c.Writes entry value → value.getLsbD 16 = true
  | .access | .event _ => True

/-- A call does not switch the core to x2APIC mode. -/
def LeavesMode : Label ι Call ε → Prop
  | .call _ c => c ≠ .enableX2apic
  | .access | .event _ => True

/-- An access that does not unmask the source. -/
def MaskedAccess (entry : BitVec 32) : Access → Prop
  | .writeReg offset value => offset = entry → value.getLsbD 16 = true
  | .readReg _ | .readBase | .writeBase _ | .x2apic | .setX2apic => True

/-- An access that does not unmask the source and has nothing to do with the mode. -/
def ModelessAccess (entry : BitVec 32) (a : Access) : Prop :=
  MaskedAccess entry a ∧ (∀ value, a ≠ .writeBase value) ∧ a ≠ .setX2apic

variable {B : (a : Access) → Reply a → Prop}

theorem Call.all_masked {c : Call}
    (h : ∀ value, c.Writes entry value → value.getLsbD 16 = true) :
    c.prog.All (MaskedAccess entry) B :=
  c.all (fun _ _ => trivial) (fun _ value hwrites heq => h value (heq ▸ hwrites)) trivial trivial
    fun _ => ⟨trivial, fun _ _ => trivial⟩

theorem Call.all_modeless {c : Call}
    (h : ∀ value, c.Writes entry value → value.getLsbD 16 = true) (hmode : c ≠ .enableX2apic) :
    c.prog.All (ModelessAccess entry) B := by
  refine c.all (fun _ _ => ⟨trivial, nofun, nofun⟩)
    (fun _ value hwrites => ⟨fun heq => h value (heq ▸ hwrites), nofun, nofun⟩)
    ⟨trivial, nofun, nofun⟩ ⟨trivial, nofun, nofun⟩ fun heq => absurd heq hmode

/-- `init_bsp_apic` unmasks none of the sources that it masks. -/
theorem initBspApic_leavesMasked (hentry : entry ∈ bspMasked) (i : ι) :
    LeavesMasked entry (.call i .initBspApic : Label ι Call ε) := by
  have hdisjoint : bspMasked.all (· ∉ bspSet) = true := by decide
  rintro value (hset | ⟨-, rfl⟩)
  · exact absurd hset (of_decide_eq_true (List.all_eq_true.mp hdisjoint entry hentry))
  · decide

/-- It does not return before it has masked them. -/
theorem initBspApic_makes (hentry : entry ∈ bspMasked) :
    (Call.prog .initBspApic).Makes (· = .writeReg entry lvtMasked) := by
  -- SVR, TPR, DFR and LDR come first.
  iterate 6 refine .inr fun _ => ?_
  simp only [bspMasked, List.mem_cons, List.not_mem_nil, or_false] at hentry
  obtain rfl | rfl | rfl | rfl | rfl | rfl := hentry
  · exact .inl rfl
  · exact .inr fun _ => .inl rfl
  · exact .inr fun _ => .inr fun _ => .inl rfl
  · exact .inr fun _ => .inr fun _ => .inr fun _ => .inl rfl
  · exact .inr fun _ => .inr fun _ => .inr fun _ => .inr fun _ => .inl rfl
  · exact .inr fun _ => .inr fun _ => .inr fun _ => .inr fun _ => .inr fun _ => .inl rfl

/-! ### The accesses on the registers -/

section Runs

variable [DecidableEq ι] {base firmware : BitVec 64} {s s' : Registers ι D} {i : ι}
  {offset value : BitVec 32}

omit [DecidableEq ι] in
/-- A write of an instance whose flag is right gets to the device. -/
theorem Registers.writeReg_device (hcurrent : s.x2apic i = s.x2apicMode)
    (h : s.writeReg dev base i offset value = some s') :
    s'.device = dev.write s.device offset value := by
  unfold Registers.writeReg at h
  rw [hcurrent] at h
  cases hmode : s.x2apicMode with
  | false =>
      rw [hmode] at h
      cases h
      rfl
  | true =>
      rw [hmode] at h
      obtain ⟨-, heq⟩ := Option.ite_none_right_eq_some.mp h
      cases heq
      rfl

/-- A masked source stays masked and raises nothing, while nobody unmasks it. -/
theorem masked_keeps (law : Masking dev entry masked raised) (n : ℕ) :
    Keeps (registers dev base firmware)
      (fun s : Registers ι D => masked s.device ∧ raised s.device = n) (MaskedAccess entry)
      fun _ _ => True where
  perform {s i a r s'} h hmasked hperform := by
    refine ⟨?_, trivial⟩
    cases a with
    | readReg offset =>
        obtain ⟨_, _, heq⟩ := Option.map_eq_some_iff.mp hperform
        cases heq
        exact h
    | writeReg offset value =>
        obtain ⟨_, hwrite, heq⟩ := Option.map_eq_some_iff.mp hperform
        cases heq
        obtain ⟨hdevice | hdevice, -⟩ := Registers.writeReg_cases hwrite
        · rw [hdevice, law.write_raised]
          by_cases hoffset : offset = entry
          · subst hoffset
            exact ⟨law.write_entry _ (hmasked rfl), h.2⟩
          · exact ⟨law.write_other _ hoffset h.1, h.2⟩
        · rwa [hdevice]
    | writeBase value =>
        cases hperform
        exact ⟨law.baseWritten _ _ h.1, (law.baseWritten_raised ..).trans h.2⟩
    | readBase | x2apic | setX2apic =>
        cases hperform
        exact h
  event {s e} h := by
    have ⟨hmasked, hraised⟩ := law.event e h.1
    exact ⟨hmasked, hraised.trans h.2⟩

/-- An instance whose flag is right stays so, while nobody changes the mode. -/
theorem current_keeps (i : ι) :
    Keeps (registers dev base firmware) (fun s : Registers ι D => s.x2apic i = s.x2apicMode)
      (ModelessAccess entry) fun _ _ => True where
  perform {s j a r s'} h hmodeless hperform := by
    refine ⟨?_, trivial⟩
    cases a with
    | readReg offset =>
        obtain ⟨_, _, heq⟩ := Option.map_eq_some_iff.mp hperform
        cases heq
        exact h
    | writeReg offset value =>
        obtain ⟨_, hwrite, heq⟩ := Option.map_eq_some_iff.mp hperform
        cases heq
        obtain ⟨-, hmode, hflags⟩ := Registers.writeReg_cases hwrite
        rwa [hmode, hflags]
    | writeBase value => exact absurd rfl (hmodeless.2.1 value)
    | setX2apic => exact absurd rfl hmodeless.2.2
    | readBase | x2apic =>
        cases hperform
        exact h
  event h := h

variable {s t u : NestedCalls.State ι Reply Answer (Core ι D)}

/-- A run on the core, as a run on the registers. -/
theorem run_registers (hfirmware : Firmware base firmware) {labels : List (Label ι Call ε)}
    (hs : Inv (Core.Inv base firmware) (Known firmware) (Answered firmware) s)
    (hrun : run (step (bus dev) Call.prog) s labels = some t) :
    Inv (Core.Inv base firmware) (Known firmware) (Answered firmware) t ∧
      run (step (registers dev base firmware) Call.prog) (s.map Core.registers) labels =
        some (t.map Core.registers) := by
  have hcalls : ∀ l ∈ labels, CallMeets Call.prog (Known firmware) (Answered firmware) l :=
    fun l _ => callMeets_known firmware l
  have hrefines := (bus_refines dev hfirmware).run hcalls hs
  rw [hrun] at hrefines
  exact ⟨(bus_keeps hfirmware).run hcalls hs hrun, hrefines.symm⟩

/-- On the registers: after a call of `init_bsp_apic` the source is masked. -/
theorem masked_of_initBspApic (law : Masking dev entry masked raised) (hentry : entry ∈ bspMasked)
    {s t : NestedCalls.State ι Reply Answer (Registers ι D)} {labels : List (Label ι Call ε)}
    (hidle : s.stack = []) (hcurrent : s.world.x2apic i = s.world.x2apicMode)
    (hrun : run (step (registers dev base firmware) Call.prog) s
      (.call i .initBspApic :: labels) = some t) (hdone : t.stack = [])
    (hlabels : ∀ l ∈ labels, LeavesMasked entry l ∧ LeavesMode l) : masked t.world.device := by
  obtain ⟨s', hcall, hrest⟩ := run_cons_eq_some.mp hrun
  have hstack : s'.stack = [(i, Call.prog .initBspApic)] ∧ s'.world = s.world := by
    cases step_cases hcall with
    | call => exact ⟨congrArg (_ :: ·) hidle, rfl⟩
  have hmeets : ∀ l ∈ labels, CallMeets Call.prog (ModelessAccess entry) (fun _ _ => True) l := by
    intro l hl
    obtain ⟨hmasked, hmode⟩ := hlabels l hl
    refine callMeets_of_call ?_
    rintro _ c rfl
    exact Call.all_modeless hmasked hmode
  have hkeeps : Keeps (registers dev base firmware)
      (fun s : Registers ι D => s.x2apic i = s.x2apicMode ∧ masked s.device)
      (ModelessAccess entry) fun _ _ => True :=
    { perform := fun h hQ hperform =>
        ⟨⟨((current_keeps i).perform h.1 hQ hperform).1,
          ((masked_keeps law _).perform ⟨h.2, rfl⟩ hQ.1 hperform).1.1⟩, trivial⟩
      event := fun h => ⟨h.1, (law.event _ h.2).1⟩ }
  refine Pending.run (P := fun s : Registers ι D => masked s.device) (i := i)
    (T := (· = .writeReg entry lvtMasked)) (current_keeps i) hkeeps ?_ hmeets ?_ ?_ hrest hdone
  · rintro w _ r w' hw rfl hperform
    obtain ⟨_, hwrite, heq⟩ := Option.map_eq_some_iff.mp hperform
    cases heq
    rw [Registers.writeReg_device hw hwrite]
    exact law.write_entry _ (by decide)
  · refine ⟨hstack.2 ▸ hcurrent, ?_⟩
    rw [hstack.1]
    rintro _ (_ | ⟨_, ⟨⟩⟩)
    exact Call.all_modeless (initBspApic_leavesMasked (ε := ε) hentry i) nofun
  · exact .inr ⟨[], _, hstack.1, initBspApic_makes hentry⟩

/-- **The sources that `init_bsp_apic` masks are silent.** Whatever calls there have
been before, after a call of `init_bsp_apic` on an instance whose flag is right each of
the six sources raises nothing in any run, until a call unmasks it. Handlers that run
during the call may make other calls, but they do not change the mode. -/
theorem silent_until_unmasked (law : Masking dev entry masked raised)
    (hfirmware : Firmware base firmware) {device : D} {memory : BitVec 64 → BitVec 32}
    {as bs cs : List (Label ι Call ε)} (hentry : entry ∈ bspMasked)
    (hstart : run (step (bus dev) Call.prog) (init (Core.start base firmware device memory)) as =
      some s) (hidle : s.stack = []) (hcurrent : (s.world.apics i).x2apic = s.world.x2apicMode)
    (hinit : run (step (bus dev) Call.prog) s (.call i .initBspApic :: bs) = some t)
    (hdone : t.stack = []) (hbs : ∀ l ∈ bs, LeavesMasked entry l ∧ LeavesMode l)
    (hmore : run (step (bus dev) Call.prog) t cs = some u)
    (hcs : ∀ l ∈ cs, LeavesMasked entry l) :
    masked u.world.device ∧ raised u.world.device = raised t.world.device := by
  have ⟨hs, _⟩ := run_registers hfirmware
    (inv_of_idle (Core.start_inv hfirmware device memory) rfl) hstart
  have ⟨ht, hinit⟩ := run_registers hfirmware hs hinit
  have ⟨_, hmore⟩ := run_registers hfirmware ht hmore
  have hmasked : masked t.world.device :=
    masked_of_initBspApic law hentry hidle hcurrent hinit hdone hbs
  have hmeets : ∀ l ∈ cs, CallMeets Call.prog (MaskedAccess entry) (fun _ _ => True) l := by
    intro l hl
    refine callMeets_of_call ?_
    rintro _ c rfl
    exact Call.all_masked (hcs _ hl)
  exact ((masked_keeps law _).run hmeets (inv_of_idle ⟨hmasked, rfl⟩ hdone) hmore).world

end Runs

/-! ### A local vector table -/

/-- A local APIC with its spurious vector register and its vector table, and the
interrupts that it has raised: their sources and vectors. -/
structure Vectors where
  svr : BitVec 32
  lvt : BitVec 32 → BitVec 32
  raised : List (BitVec 32 × BitVec 8)

/-- While the APIC is disabled, with bit 8 of SVR clear, all entries stay masked. -/
def Vectors.write (d : Vectors) (offset value : BitVec 32) : Vectors :=
  if offset = regSvr then
    { d with
      svr := value
      lvt := fun e => if value.getLsbD 8 then d.lvt e else d.lvt e ||| lvtMasked }
  else if offset = regLvtCmci ∨ offset ∈ bspMasked then
    let entry := if d.svr.getLsbD 8 then value else value ||| lvtMasked
    { d with lvt := Function.update d.lvt offset entry }
  else d

/-- A source wants to raise an interrupt. -/
def Vectors.event (d : Vectors) (source : BitVec 32) : Vectors :=
  if (d.lvt source).getLsbD 16 then d
  else { d with raised := d.raised ++ [(source, (d.lvt source).setWidth 8)] }

def vectors : Device Vectors (BitVec 32) where
  apicId _ := 0
  read d offset := if offset = regSvr then d.svr else d.lvt offset
  write := Vectors.write
  readable _ := true
  writable _ _ := true
  baseWritten d _ _ := d
  event := Vectors.event

theorem getLsbD_or_lvtMasked (value : BitVec 32) :
    (value ||| lvtMasked).getLsbD 16 = true := by
  rw [BitVec.getLsbD_or, show lvtMasked.getLsbD 16 = true from rfl, Bool.or_true]

/-- It treats the entries as they are expected to be treated. -/
theorem vectors_masking (hentry : entry ∈ bspMasked) :
    Masking vectors entry (fun d => (d.lvt entry).getLsbD 16 = true)
      (fun d => d.raised.countP (·.1 = entry)) where
  write_entry d {value} hvalue := by
    have hsvr : entry ≠ regSvr := by
      rintro rfl
      revert hentry
      decide
    change ((Vectors.write d entry value).lvt entry).getLsbD 16 = true
    rw [Vectors.write, if_neg hsvr, if_pos (.inr hentry)]
    change (Function.update d.lvt entry _ entry).getLsbD 16 = true
    rw [Function.update_self]
    split
    · exact hvalue
    · exact getLsbD_or_lvtMasked value
  write_other {d offset} value hoffset hmasked := by
    change ((Vectors.write d offset value).lvt entry).getLsbD 16 = true
    unfold Vectors.write
    split
    · change (if value.getLsbD 8 then d.lvt entry else d.lvt entry ||| lvtMasked).getLsbD 16 = true
      split
      · exact hmasked
      · exact getLsbD_or_lvtMasked _
    · split
      · change (Function.update d.lvt offset _ entry).getLsbD 16 = true
        rwa [Function.update_of_ne hoffset.symm]
      · exact hmasked
  write_raised d offset value := by
    change (Vectors.write d offset value).raised.countP _ = _
    unfold Vectors.write
    split
    · rfl
    · split <;> rfl
  baseWritten _ _ h := h
  baseWritten_raised _ _ _ := rfl
  event {d} source hmasked := by
    change ((Vectors.event d source).lvt entry).getLsbD 16 = true ∧
      (Vectors.event d source).raised.countP _ = _
    unfold Vectors.event
    split
    case isTrue => exact ⟨hmasked, rfl⟩
    case isFalse hsource =>
      have hne : source ≠ entry := by
        rintro rfl
        exact hsource hmasked
      refine ⟨hmasked, ?_⟩
      simp [List.countP_append, hne]

/-- The firmware has left LINT0 unmasked: it raises an interrupt while the call is in
progress, whose handler signals its end, and no more afterwards, when the timer does. -/
theorem silent_until_unmasked_lint0 :
    let start : NestedCalls.State Unit Reply Answer (Core Unit Vectors) :=
      init (Core.start 0xFEE00000 0xFEE00900 ⟨0x1FF, fun _ => 0x20, []⟩ fun _ => 0)
    let bs : List (Label Unit Call (BitVec 32)) :=
      [.access, .event regLvtLint0, .call () .eoi, .access, .access] ++ List.replicate 13 .access
    let cs : List (Label Unit Call (BitVec 32)) :=
      [.event regLvtLint0, .call () (.setupTimer 0x30 0 0 5), .access, .access, .access, .access,
        .event regLvtTimer]
    ∃ t u, run (step (bus vectors) Call.prog) start (.call () .initBspApic :: bs) = some t ∧
      run (step (bus vectors) Call.prog) t cs = some u ∧
      t.world.device.raised = [(regLvtLint0, 0x20)] ∧
      u.world.device.raised.countP (·.1 = regLvtLint0) =
        t.world.device.raised.countP (·.1 = regLvtLint0) ∧
      u.world.device.raised = [(regLvtLint0, 0x20), (regLvtTimer, 0x30)] := by
  intro start bs cs
  have hfirmware : Firmware 0xFEE00000 0xFEE00900 := ⟨by decide, by decide, by decide⟩
  have hlint0 : regLvtLint0 ∈ bspMasked := by decide
  have heoi (value : BitVec 32) : ¬(Call.eoi).Writes regLvtLint0 value :=
    show regLvtLint0 ≠ regEoi by decide
  have htimer (value : BitVec 32) : ¬(Call.setupTimer 0x30 0 0 5).Writes regLvtLint0 value := by
    rintro (h | h | ⟨h, -⟩) <;> exact absurd h (by decide)
  have hruns : (run (step (bus vectors) Call.prog) start (.call () .initBspApic :: bs)).bind
      (fun t => (run (step (bus vectors) Call.prog) t cs).map fun u =>
        (t.stack.isEmpty, t.world.device.raised, u.world.device.raised)) =
      some (true, [(regLvtLint0, 0x20)], [(regLvtLint0, 0x20), (regLvtTimer, 0x30)]) := by
    decide
  obtain ⟨t, hinit, hmap⟩ := Option.bind_eq_some_iff.mp hruns
  obtain ⟨u, hmore, heq⟩ := Option.map_eq_some_iff.mp hmap
  obtain ⟨hdone, hraised⟩ := Prod.mk.inj heq
  obtain ⟨hraised, hraised'⟩ := Prod.mk.inj hraised
  have hbs : ∀ l ∈ bs, LeavesMasked regLvtLint0 l ∧ LeavesMode l := by
    simp [bs, LeavesMasked, LeavesMode, heoi]
  have hcs : ∀ l ∈ cs, LeavesMasked regLvtLint0 l := by
    simp only [cs, List.forall_mem_cons, List.not_mem_nil, LeavesMasked, true_and, false_implies,
      implies_true, and_true]
    exact fun value hwrites => absurd hwrites (htimer value)
  have hcurrent : (start.world.apics ()).x2apic = start.world.x2apicMode := by decide
  have hsilent := silent_until_unmasked (vectors_masking hlint0) hfirmware hlint0
    (run_nil start) rfl hcurrent hinit (List.isEmpty_iff.mp hdone) hbs hmore hcs
  exact ⟨t, u, hinit, hmore, hraised, hsilent.2, hraised'⟩

end SmpNostd.ApicAccess
