import Mathlib.Logic.Function.Basic
import SmpNostd.Lib.Bits
import SmpNostd.Lib.Machine

/-!
A core's own per-CPU data, by way of its GS base (`percpu.rs`).

`PerCpu::new` puts the data of a core into a heap allocation of its own and stores
the address of the allocation in it. `register_percpu` enters that address into the
array of all cores and writes it to the GS base of the core that calls it, in two
halves. From then on `get_current_cpu` reads the GS base, takes it for the address,
and asserts that the address found there is the same.

Here any number of cores do this at the same time, each access to what they share
being one step, and write to each other's data through the references they have
got. What the allocator gives out is free and not null. The cores do not even need
indices of their own for this: with one index twice, the array keeps the later of
two addresses, but each core goes on finding its own data.
-/

namespace SmpNostd.CurrentCpu

open Machine

/-- Per-CPU data structure. -/
structure PerCpu where
  selfPtr : BitVec 64
  cpuIndex : BitVec 32
  apicId : BitVec 32
  isBsp : Bool
  kernelStackTop : BitVec 64
  kernelStackSize : BitVec 64
  currentTaskId : BitVec 64
  interruptDisableCount : BitVec 64
  localData : BitVec 64
  deriving DecidableEq, Repr

def maxCpus : ℕ := 256

/-- What a core is registered with. -/
structure Args where
  cpuIndex : BitVec 32
  apicId : BitVec 32
  isBsp : Bool
  deriving DecidableEq, Repr

/-- What `PerCpu::new` puts into the allocation before it sets the self-pointer. -/
def Args.boxed (args : Args) : PerCpu where
  selfPtr := 0
  cpuIndex := args.cpuIndex
  apicId := args.apicId
  isBsp := args.isBsp
  kernelStackTop := 0
  kernelStackSize := 0
  currentTaskId := 0
  interruptDisableCount := 0
  localData := 0

/-- Where a core is, with the address of its data. -/
inductive Pc
  | start
  /-- In `new`, about to set the self-pointer. -/
  | pointing (ptr : BitVec 64)
  | boxed (ptr : BitVec 64)
  /-- In `register_percpu`, about to store into the array. -/
  | storing (ptr : BitVec 64)
  /-- About to write the GS base. -/
  | settingGs (ptr : BitVec 64)
  | registered
  | panicked
  deriving DecidableEq, Repr

structure State (C : Type) where
  heap : BitVec 64 → Option PerCpu
  /-- `PERCPU_ARRAY`; 0 is null. -/
  array : ℕ → BitVec 64
  gsBase : C → BitVec 64
  pc : C → Pc

/-- Nothing is allocated yet; the GS bases hold anything. -/
def init {C : Type} (gsBase : C → BitVec 64) : State C where
  heap _ := none
  array _ := 0
  gsBase := gsBase
  pc _ := .start

/-- The fields that are written after the data has been set up. -/
inductive Write
  | kernelStack (top size : BitVec 64)
  | currentTaskId (id : BitVec 64)
  | interruptDisableCount (count : BitVec 64)
  | localData (ptr : BitVec 64)
  deriving DecidableEq, Repr

def Write.apply (percpu : PerCpu) : Write → PerCpu
  | .kernelStack top size => { percpu with kernelStackTop := top, kernelStackSize := size }
  | .currentTaskId id => { percpu with currentTaskId := id }
  | .interruptDisableCount count => { percpu with interruptDisableCount := count }
  | .localData ptr => { percpu with localData := ptr }

/-- `PerCpu::new` gets its allocation; a core goes on; somebody writes to data
through a reference to it. -/
inductive Label (C : Type)
  | alloc (c : C) (ptr : BitVec 64)
  | step (c : C)
  | write (ptr : BitVec 64) (w : Write)
  deriving DecidableEq, Repr

/-- The halves of a 64-bit value that `wrmsr` hands over in EAX and EDX. -/
def wrmsrHalves (value : BitVec 64) : BitVec 32 × BitVec 32 :=
  (value.setWidth 32, (value >>> 32).setWidth 32)

/-- What `rdmsr` makes of EAX and EDX. -/
def rdmsrValue (halves : BitVec 32 × BitVec 32) : BitVec 64 :=
  (halves.2.setWidth 64 <<< 32) ||| halves.1.setWidth 64

/-- The register itself is EDX and EAX one after the other. -/
def msrOfHalves (halves : BitVec 32 × BitVec 32) : BitVec 64 := halves.2 ++ halves.1

def halvesOfMsr (msr : BitVec 64) : BitVec 32 × BitVec 32 :=
  (msr.setWidth 32, (msr >>> 32).setWidth 32)

variable {C : Type}

/-- `*ptr = …`. -/
def State.update (s : State C) (ptr : BitVec 64) (f : PerCpu → PerCpu) [DecidableEq C] :
    State C :=
  { s with heap := Function.update s.heap ptr ((s.heap ptr).map f) }

/-- Get the `PerCpu` for the currently executing CPU via GS base: the address and
what is there. Without data there, or with another self-pointer, there is none. -/
def getCurrentCpu (s : State C) (c : C) : Option (BitVec 64 × PerCpu) :=
  let gsBase := rdmsrValue (halvesOfMsr (s.gsBase c))
  match s.heap gsBase with
  | some percpu => if percpu.selfPtr = gsBase then some (gsBase, percpu) else none
  | none => none

/-- Get the `PerCpu` for a specific CPU index. -/
def getCpu (s : State C) (index : ℕ) : Option (BitVec 64 × PerCpu) :=
  if maxCpus ≤ index then none
  else if s.array index = 0 then none
  else (s.heap (s.array index)).map fun percpu => (s.array index, percpu)

variable [DecidableEq C]

def State.setPc (s : State C) (c : C) (pc : Pc) : State C :=
  { s with pc := Function.update s.pc c pc }

/-- The next step of a core. The index is read where it is used; nothing writes to
it. -/
def coreStep (s : State C) (c : C) : Option (State C) :=
  match s.pc c with
  | .pointing ptr =>
      some ((s.update ptr fun percpu => { percpu with selfPtr := ptr }).setPc c (.boxed ptr))
  | .boxed ptr =>
      match s.heap ptr with
      | some percpu =>
          some (s.setPc c (if percpu.cpuIndex.toNat < maxCpus then .storing ptr else .panicked))
      | none => none
  | .storing ptr =>
      match s.heap ptr with
      | some percpu =>
          some ({ s with
            array := Function.update s.array percpu.cpuIndex.toNat ptr }.setPc c (.settingGs ptr))
      | none => none
  | .settingGs ptr =>
      some ({ s with
        gsBase := Function.update s.gsBase c (msrOfHalves (wrmsrHalves ptr)) }.setPc c .registered)
  | .start | .registered | .panicked => none

def step (args : C → Args) (s : State C) : Label C → Option (State C)
  | .alloc c ptr =>
      if s.pc c = .start ∧ s.heap ptr = none ∧ ptr ≠ 0 then
        some ({ s with
          heap := Function.update s.heap ptr (some (args c).boxed) }.setPc c (.pointing ptr))
      else none
  | .step c => coreStep s c
  | .write ptr w =>
      if (s.heap ptr).isSome then some (s.update ptr fun percpu => w.apply percpu) else none

/-! ### The halves of the register -/

theorem msrOfHalves_wrmsrHalves (value : BitVec 64) : msrOfHalves (wrmsrHalves value) = value :=
  Bits.append_halves (v := 32) (w := 32) value

theorem rdmsrValue_halvesOfMsr (msr : BitVec 64) : rdmsrValue (halvesOfMsr msr) = msr := by
  rw [rdmsrValue, BitVec.or_comm]
  exact Bits.join_halves (w := 32) (by omega) msr

/-! ### What a step can do -/

variable {args : C → Args} {s s' : State C}

inductive Steps (args : C → Args) (s : State C) : State C → Prop
  | alloc {c ptr} (hpc : s.pc c = .start) (hfree : s.heap ptr = none) (hnull : ptr ≠ 0) :
      Steps args s ({ s with
        heap := Function.update s.heap ptr (some (args c).boxed) }.setPc c (.pointing ptr))
  | point {c ptr} (hpc : s.pc c = .pointing ptr) :
      Steps args s
        ((s.update ptr fun percpu => { percpu with selfPtr := ptr }).setPc c (.boxed ptr))
  | check {c ptr percpu} (hpc : s.pc c = .boxed ptr) (hheap : s.heap ptr = some percpu) :
      Steps args s
        (s.setPc c (if percpu.cpuIndex.toNat < maxCpus then .storing ptr else .panicked))
  | enter {c ptr percpu} (hpc : s.pc c = .storing ptr) (hheap : s.heap ptr = some percpu) :
      Steps args s ({ s with
        array := Function.update s.array percpu.cpuIndex.toNat ptr }.setPc c (.settingGs ptr))
  | setGs {c ptr} (hpc : s.pc c = .settingGs ptr) :
      Steps args s ({ s with
        gsBase := Function.update s.gsBase c (msrOfHalves (wrmsrHalves ptr)) }.setPc c .registered)
  | write {ptr} (w : Write) : Steps args s (s.update ptr fun percpu => w.apply percpu)

theorem steps_of_step {l : Label C} (h : step args s l = some s') : Steps args s s' := by
  cases l with
  | alloc c ptr =>
      obtain ⟨⟨hpc, hfree, hnull⟩, heq⟩ := Option.ite_none_right_eq_some.mp h
      cases heq
      exact .alloc hpc hfree hnull
  | step c =>
      simp only [step, coreStep] at h
      cases hpc : s.pc c with
      | start | registered | panicked => simp [hpc] at h
      | pointing ptr =>
          rw [hpc] at h
          cases h
          exact .point hpc
      | boxed ptr | storing ptr =>
          simp only [hpc] at h
          split at h <;> cases h
          rename_i hheap
          first | exact .check hpc hheap | exact .enter hpc hheap
      | settingGs ptr =>
          rw [hpc] at h
          cases h
          exact .setGs hpc
  | write ptr w =>
      obtain ⟨-, heq⟩ := Option.ite_none_right_eq_some.mp h
      cases heq
      exact .write w

/-! ### The invariant -/

variable {c d : C} {ptr : BitVec 64}

/-- The address that a core has for its data. -/
def State.ptrOf (s : State C) (c : C) : Option (BitVec 64) :=
  match s.pc c with
  | .pointing ptr | .boxed ptr | .storing ptr | .settingGs ptr => some ptr
  | .registered => some (s.gsBase c)
  | .start | .panicked => none

/-- The core has entered its address into the array. -/
def State.Entered (s : State C) (c : C) : Prop :=
  match s.pc c with
  | .settingGs _ | .registered => True
  | .start | .pointing _ | .boxed _ | .storing _ | .panicked => False

/-- The data is that of a core registered with `args`. -/
structure PerCpu.Of (percpu : PerCpu) (args : Args) : Prop where
  cpuIndex : percpu.cpuIndex = args.cpuIndex
  apicId : percpu.apicId = args.apicId
  isBsp : percpu.isBsp = args.isBsp

structure Inv (args : C → Args) (s : State C) : Prop where
  data : ∀ c ptr, s.ptrOf c = some ptr → ptr ≠ 0 ∧ ∃ percpu, s.heap ptr = some percpu ∧
    percpu.Of (args c) ∧ (s.pc c ≠ .pointing ptr → percpu.selfPtr = ptr)
  distinct : ∀ c d ptr, s.ptrOf c = some ptr → s.ptrOf d = some ptr → c = d
  slots : ∀ i, s.array i ≠ 0 → ∃ c, s.Entered c ∧ s.ptrOf c = some (s.array i) ∧
    (args c).cpuIndex.toNat = i
  entered : ∀ c, s.Entered c → s.array (args c).cpuIndex.toNat ≠ 0

omit [DecidableEq C] in
theorem init_inv (args : C → Args) (gsBase : C → BitVec 64) : Inv args (init gsBase) where
  data c ptr h := by cases h
  distinct c d ptr h := by cases h
  slots i h := absurd rfl h
  entered c h := h.elim

omit [DecidableEq C] in
/-- A core is where its program counter and its GS base say. -/
theorem ptrOf_congr (hpc : s'.pc d = s.pc d) (hgs : s'.gsBase d = s.gsBase d) :
    s'.ptrOf d = s.ptrOf d := by
  rw [State.ptrOf, State.ptrOf, hpc, hgs]

omit [DecidableEq C] in
theorem entered_congr (hpc : s'.pc d = s.pc d) : s'.Entered d ↔ s.Entered d := by
  rw [State.Entered, State.Entered, hpc]

omit [DecidableEq C] in
theorem exists_ptrOf_of_entered (h : s.Entered c) : ∃ ptr, s.ptrOf c = some ptr := by
  unfold State.Entered at h
  unfold State.ptrOf
  cases hpc : s.pc c with
  | settingGs ptr => exact ⟨ptr, rfl⟩
  | registered => exact ⟨_, rfl⟩
  | start | pointing | boxed | storing | panicked =>
      rw [hpc] at h
      exact h.elim

omit [DecidableEq C] in
/-- A core whose data is complete goes on with the same address, or gives up before
it has entered it anywhere. -/
theorem Inv.move (h : Inv args s) (hheap : s'.heap = s.heap) (harray : s'.array = s.array)
    (hothers : ∀ d, d ≠ c → s'.pc d = s.pc d ∧ s'.gsBase d = s.gsBase d)
    (hpointed : ∀ ptr, s.pc c ≠ .pointing ptr) (hentered : s'.Entered c ↔ s.Entered c)
    (hptr : s'.ptrOf c = s.ptrOf c ∨ s'.ptrOf c = none) : Inv args s' := by
  have hback : ∀ d ptr, s'.ptrOf d = some ptr → s.ptrOf d = some ptr := by
    intro d ptr hd
    by_cases hdc : d = c
    · subst hdc
      rcases hptr with hsame | hnone
      · rwa [hsame] at hd
      · rw [hnone] at hd
        cases hd
    · rwa [ptrOf_congr (hothers d hdc).1 (hothers d hdc).2] at hd
  have hiff : ∀ d, s'.Entered d ↔ s.Entered d := by
    intro d
    by_cases hdc : d = c
    · subst hdc
      exact hentered
    · exact entered_congr (hothers d hdc).1
  refine ⟨fun d ptr hd => ?_, fun d e ptr hd he => ?_, fun i hi => ?_, fun d hd => ?_⟩
  · obtain ⟨hnull, percpu, hmem, hof, hself⟩ := h.data d ptr (hback d ptr hd)
    refine ⟨hnull, percpu, hheap ▸ hmem, hof, fun hpc => hself ?_⟩
    by_cases hdc : d = c
    · subst hdc
      exact hpointed ptr
    · rwa [(hothers d hdc).1] at hpc
  · exact h.distinct d e ptr (hback d ptr hd) (hback e ptr he)
  · rw [harray] at hi ⊢
    obtain ⟨d, hd, hptr', hindex⟩ := h.slots i hi
    have hd' := (hiff d).mpr hd
    obtain ⟨q, hq⟩ := exists_ptrOf_of_entered hd'
    exact ⟨d, hd', by rw [hq, ← hback d q hq, hptr'], hindex⟩
  · rw [harray]
    exact h.entered d ((hiff d).mp hd)

/-- The data at `ptr` is written to, and stays that of the same core, in the same
place. -/
theorem Inv.update (h : Inv args s) {f : PerCpu → PerCpu}
    (hof : ∀ percpu a, PerCpu.Of percpu a → (f percpu).Of a)
    (hself : ∀ percpu, (f percpu).selfPtr = percpu.selfPtr) : Inv args (s.update ptr f) where
  data d q hd := by
    obtain ⟨hnull, percpu, hmem, hd', hq⟩ := h.data d q hd
    refine ⟨hnull, ?_⟩
    by_cases hqp : q = ptr
    · subst hqp
      refine ⟨f percpu, ?_, hof percpu _ hd', fun hpc => (hself percpu).trans (hq hpc)⟩
      simp [State.update, hmem]
    · exact ⟨percpu, by simp [State.update, hqp, hmem], hd', hq⟩
  distinct := h.distinct
  slots := h.slots
  entered := h.entered

theorem pc_setPc_self (s : State C) (c : C) (pc : Pc) : (s.setPc c pc).pc c = pc :=
  Function.update_self ..

theorem Inv.alloc (h : Inv args s) (hpc : s.pc c = .start) (hfree : s.heap ptr = none)
    (hnull : ptr ≠ 0) : Inv args ({ s with
      heap := Function.update s.heap ptr (some (args c).boxed) }.setPc c (.pointing ptr)) := by
  set s' := { s with heap := Function.update s.heap ptr (some (args c).boxed) }.setPc c
    (.pointing ptr) with hs'
  have hself : s'.ptrOf c = some ptr := by
    rw [State.ptrOf, hs', pc_setPc_self]
  have hothers : ∀ d, d ≠ c → s'.ptrOf d = s.ptrOf d := by
    intro d hdc
    exact ptrOf_congr (Function.update_of_ne hdc ..) rfl
  have hfresh : ∀ d q, d ≠ c → s'.ptrOf d = some q → q ≠ ptr := by
    rintro d q hdc hd rfl
    obtain ⟨-, percpu, hmem, -⟩ := h.data d q (hothers d hdc ▸ hd)
    rw [hfree] at hmem
    cases hmem
  have hnot : ¬s.Entered c := by simp [State.Entered, hpc]
  have hentered : ∀ d, s'.Entered d ↔ s.Entered d := by
    intro d
    by_cases hdc : d = c
    · subst hdc
      refine iff_of_false ?_ hnot
      simp [State.Entered, hs', pc_setPc_self]
    · exact entered_congr (Function.update_of_ne hdc ..)
  refine ⟨fun d q hd => ?_, fun d e q hd he => ?_, fun i hi => ?_, fun d hd => ?_⟩
  · by_cases hdc : d = c
    · subst hdc
      obtain rfl : ptr = q := Option.some.inj (hself.symm.trans hd)
      refine ⟨hnull, (args d).boxed, Function.update_self .., ⟨rfl, rfl, rfl⟩, fun hne => ?_⟩
      exact absurd (pc_setPc_self ..) hne
    · obtain ⟨hq, percpu, hmem, hof, hpoint⟩ := h.data d q (hothers d hdc ▸ hd)
      refine ⟨hq, percpu, ?_, hof, fun hne => hpoint ?_⟩
      · exact (Function.update_of_ne (hfresh d q hdc hd) ..).trans hmem
      · rwa [show s'.pc d = s.pc d from Function.update_of_ne hdc ..] at hne
  · by_cases hdc : d = c
    · by_cases hec : e = c
      · rw [hdc, hec]
      · subst hdc
        obtain rfl : ptr = q := Option.some.inj (hself.symm.trans hd)
        exact absurd rfl (hfresh e ptr hec he)
    · by_cases hec : e = c
      · subst hec
        obtain rfl : ptr = q := Option.some.inj (hself.symm.trans he)
        exact absurd rfl (hfresh d ptr hdc hd)
      · exact h.distinct d e q (hothers d hdc ▸ hd) (hothers e hec ▸ he)
  · obtain ⟨d, hd, hptr, hindex⟩ := h.slots i hi
    have hdc : d ≠ c := by
      rintro rfl
      exact hnot hd
    exact ⟨d, (hentered d).mpr hd, (hothers d hdc).trans hptr, hindex⟩
  · exact h.entered d ((hentered d).mp hd)

theorem Inv.point (h : Inv args s) (hpc : s.pc c = .pointing ptr) :
    Inv args ((s.update ptr fun percpu => { percpu with selfPtr := ptr }).setPc c
      (.boxed ptr)) := by
  set s' := (s.update ptr fun percpu => { percpu with selfPtr := ptr }).setPc c (.boxed ptr)
    with hs'
  have hptr : s.ptrOf c = some ptr := by rw [State.ptrOf, hpc]
  have hsame : ∀ d, s'.ptrOf d = s.ptrOf d := by
    intro d
    by_cases hdc : d = c
    · subst hdc
      rw [hptr, State.ptrOf, hs', pc_setPc_self]
    · exact ptrOf_congr (Function.update_of_ne hdc ..) rfl
  have hentered : ∀ d, s'.Entered d ↔ s.Entered d := by
    intro d
    by_cases hdc : d = c
    · subst hdc
      simp [State.Entered, hs', pc_setPc_self, hpc]
    · exact entered_congr (Function.update_of_ne hdc ..)
  refine ⟨fun d q hd => ?_, fun d e q hd he => ?_, fun i hi => ?_, fun d hd => ?_⟩
  · rw [hsame] at hd
    obtain ⟨hnull, percpu, hmem, hof, hself⟩ := h.data d q hd
    refine ⟨hnull, ?_⟩
    by_cases hdc : d = c
    · subst hdc
      obtain rfl : ptr = q := Option.some.inj (hptr.symm.trans hd)
      refine ⟨{ percpu with selfPtr := ptr }, ?_, ⟨hof.cpuIndex, hof.apicId, hof.isBsp⟩,
        fun _ => rfl⟩
      simp [hs', State.setPc, State.update, hmem]
    · have hqp : q ≠ ptr := by
        rintro rfl
        exact hdc (h.distinct d c q hd hptr)
      refine ⟨percpu, ?_, hof, fun hne => hself ?_⟩
      · exact (Function.update_of_ne hqp ..).trans hmem
      · rwa [show s'.pc d = s.pc d from Function.update_of_ne hdc ..] at hne
  · rw [hsame] at hd he
    exact h.distinct d e q hd he
  · obtain ⟨d, hd, hslot, hindex⟩ := h.slots i hi
    exact ⟨d, (hentered d).mpr hd, (hsame d).trans hslot, hindex⟩
  · exact h.entered d ((hentered d).mp hd)

theorem Inv.check (h : Inv args s) (hpc : s.pc c = .boxed ptr) (percpu : PerCpu) :
    Inv args
      (s.setPc c (if percpu.cpuIndex.toNat < maxCpus then .storing ptr else .panicked)) := by
  have hptr : s.ptrOf c = some ptr := by rw [State.ptrOf, hpc]
  refine h.move (c := c) rfl rfl (fun d hdc => ⟨Function.update_of_ne hdc .., rfl⟩) ?_ ?_ ?_
  · simp [hpc]
  · rw [State.Entered, State.Entered, pc_setPc_self, hpc]
    by_cases hlt : percpu.cpuIndex.toNat < maxCpus <;> simp [hlt]
  · rw [hptr, State.ptrOf, pc_setPc_self]
    by_cases hlt : percpu.cpuIndex.toNat < maxCpus
    · left
      rw [if_pos hlt]
    · right
      rw [if_neg hlt]

/-- The slot gets the address of a core that is registered with its index. A core
that was there before with the same index loses the slot, and nothing else. -/
theorem Inv.enter {percpu : PerCpu} (h : Inv args s) (hpc : s.pc c = .storing ptr)
    (hheap : s.heap ptr = some percpu) : Inv args ({ s with
      array := Function.update s.array percpu.cpuIndex.toNat ptr }.setPc c
        (.settingGs ptr)) := by
  have hptr : s.ptrOf c = some ptr := by rw [State.ptrOf, hpc]
  obtain ⟨hnull, percpu', hmem, hof, hself⟩ := h.data c ptr hptr
  obtain rfl : percpu' = percpu := Option.some.inj (hmem.symm.trans hheap)
  rw [hof.cpuIndex]
  set s' := { s with
    array := Function.update s.array (args c).cpuIndex.toNat ptr }.setPc c (.settingGs ptr)
    with hs'
  have hsame : ∀ d, s'.ptrOf d = s.ptrOf d := by
    intro d
    by_cases hdc : d = c
    · subst hdc
      rw [hptr, State.ptrOf, hs', pc_setPc_self]
    · exact ptrOf_congr (Function.update_of_ne hdc ..) rfl
  have henteredSelf : s'.Entered c := by
    rw [State.Entered, hs', pc_setPc_self]
    exact True.intro
  have hentered : ∀ d, s.Entered d → s'.Entered d := by
    intro d hd
    by_cases hdc : d = c
    · exact hdc ▸ henteredSelf
    · exact (entered_congr (Function.update_of_ne hdc ..)).mpr hd
  refine ⟨fun d q hd => ?_, fun d e q hd he => ?_, fun i hi => ?_, fun d hd => ?_⟩
  · rw [hsame] at hd
    obtain ⟨hq, percpu, hmem, hof, hpoint⟩ := h.data d q hd
    refine ⟨hq, percpu, hmem, hof, fun hne => hpoint ?_⟩
    by_cases hdc : d = c
    · subst hdc
      simp [hpc]
    · rwa [show s'.pc d = s.pc d from Function.update_of_ne hdc ..] at hne
  · rw [hsame] at hd he
    exact h.distinct d e q hd he
  · by_cases hindex : i = (args c).cpuIndex.toNat
    · refine ⟨c, henteredSelf, (hsame c).trans ?_, hindex.symm⟩
      rw [hptr, hindex]
      have harray : s'.array (args c).cpuIndex.toNat = ptr := Function.update_self ..
      rw [harray]
    · have harray : s'.array i = s.array i := Function.update_of_ne hindex ..
      rw [harray] at hi ⊢
      obtain ⟨d, hd, hslot, hd'⟩ := h.slots i hi
      exact ⟨d, hentered d hd, (hsame d).trans hslot, hd'⟩
  · by_cases hindex : (args d).cpuIndex.toNat = (args c).cpuIndex.toNat
    · rw [hindex]
      exact (Function.update_self ..).trans_ne hnull
    · rw [show s'.array (args d).cpuIndex.toNat = s.array (args d).cpuIndex.toNat from
        Function.update_of_ne hindex ..]
      refine h.entered d ((entered_congr (Function.update_of_ne ?_ ..)).mp hd)
      rintro rfl
      exact hindex rfl

theorem Inv.setGs (h : Inv args s) (hpc : s.pc c = .settingGs ptr) :
    Inv args ({ s with
      gsBase := Function.update s.gsBase c (msrOfHalves (wrmsrHalves ptr)) }.setPc c
        .registered) := by
  have hptr : s.ptrOf c = some ptr := by rw [State.ptrOf, hpc]
  refine h.move (c := c) rfl rfl
    (fun d hdc => ⟨Function.update_of_ne hdc .., Function.update_of_ne hdc ..⟩) ?_ ?_ (.inl ?_)
  · simp [hpc]
  · rw [State.Entered, State.Entered, pc_setPc_self, hpc]
  · rw [hptr, State.ptrOf, pc_setPc_self]
    exact congrArg some ((Function.update_self ..).trans (msrOfHalves_wrmsrHalves ptr))

theorem Write.apply_of (w : Write) {percpu : PerCpu} {a : Args} (h : percpu.Of a) :
    (w.apply percpu).Of a := by
  cases w <;> exact ⟨h.cpuIndex, h.apicId, h.isBsp⟩

theorem Write.apply_selfPtr (w : Write) (percpu : PerCpu) :
    (w.apply percpu).selfPtr = percpu.selfPtr := by
  cases w <;> rfl

theorem Inv.step (h : Inv args s) {l : Label C} (hstep : step args s l = some s') :
    Inv args s' := by
  cases steps_of_step hstep with
  | alloc hpc hfree hnull => exact h.alloc hpc hfree hnull
  | point hpc => exact h.point hpc
  | check hpc hheap => exact h.check hpc _
  | enter hpc hheap => exact h.enter hpc hheap
  | setGs hpc => exact h.setGs hpc
  | write w => exact h.update (fun _ _ => w.apply_of) w.apply_selfPtr

/-! ### The bound on the index -/

/-- What a core knows of its index where it is. -/
def Pc.Bounded (args : Args) : Pc → Prop
  | .start | .pointing _ | .boxed _ => True
  | .storing _ | .settingGs _ | .registered => args.cpuIndex.toNat < maxCpus
  | .panicked => maxCpus ≤ args.cpuIndex.toNat

def Bounded (args : C → Args) (s : State C) : Prop := ∀ c, (s.pc c).Bounded (args c)

theorem Bounded.setPc (h : Bounded args s) {pc : Pc} (hpc : pc.Bounded (args c)) :
    Bounded args (s.setPc c pc) := by
  intro d
  by_cases hdc : d = c
  · subst hdc
    rwa [pc_setPc_self]
  · have hsame : (s.setPc c pc).pc d = s.pc d := Function.update_of_ne hdc ..
    rw [hsame]
    exact h d

theorem Bounded.step (hinv : Inv args s) (h : Bounded args s) {l : Label C}
    (hstep : CurrentCpu.step args s l = some s') : Bounded args s' := by
  cases steps_of_step hstep with
  | alloc | point => exact Bounded.setPc h True.intro
  | @check c ptr percpu hpc hheap =>
      obtain ⟨-, percpu', hmem, hof, -⟩ := hinv.data c ptr (by rw [State.ptrOf, hpc])
      obtain rfl : percpu' = percpu := Option.some.inj (hmem.symm.trans hheap)
      refine Bounded.setPc h ?_
      rw [hof.cpuIndex]
      split
      · assumption
      · exact Nat.not_lt.mp ‹_›
  | @enter c _ _ hpc | @setGs c _ hpc =>
      have hc := h c
      rw [hpc] at hc
      exact Bounded.setPc h hc
  | write => exact h

theorem inv_of_reachable {gsBase : C → BitVec 64}
    (h : Reachable (step args) (init gsBase) s) : Inv args s ∧ Bounded args s :=
  reachable_invariant (I := fun s => Inv args s ∧ Bounded args s)
    (fun _ _ _ hs hstep => ⟨hs.1.step hstep, hs.2.step hs.1 hstep⟩)
    ⟨init_inv args gsBase, fun _ => True.intro⟩ h

/-! ### What the two functions find -/

omit [DecidableEq C] in
theorem getCurrentCpu_eq {percpu : PerCpu} (hheap : s.heap (s.gsBase c) = some percpu)
    (hself : percpu.selfPtr = s.gsBase c) : getCurrentCpu s c = some (s.gsBase c, percpu) := by
  simp only [getCurrentCpu, rdmsrValue_halvesOfMsr, hheap]
  exact if_pos hself

omit [DecidableEq C] in
theorem Inv.getCurrentCpu (h : Inv args s) (hc : s.pc c = .registered) :
    ∃ percpu, CurrentCpu.getCurrentCpu s c = some (s.gsBase c, percpu) ∧
      percpu.Of (args c) ∧ s.heap (s.gsBase c) = some percpu := by
  obtain ⟨-, percpu, hmem, hof, hself⟩ := h.data c (s.gsBase c) (by rw [State.ptrOf, hc])
  exact ⟨percpu, getCurrentCpu_eq hmem (hself (by simp [hc])), hof, hmem⟩

omit [DecidableEq C] in
theorem Inv.gsBase_ne (h : Inv args s) (hc : s.pc c = .registered) (hd : s.pc d = .registered)
    (hne : c ≠ d) : s.gsBase c ≠ s.gsBase d := by
  intro heq
  refine hne (h.distinct c d (s.gsBase c) ?_ ?_)
  · rw [State.ptrOf, hc]
  · rw [State.ptrOf, hd, heq]

omit [DecidableEq C] in
/-- What is in a slot of the array is the complete data of a core with that index. -/
theorem Inv.getCpu (h : Inv args s) {i : ℕ} {percpu : PerCpu}
    (hget : CurrentCpu.getCpu s i = some (ptr, percpu)) :
    ∃ c, s.Entered c ∧ s.ptrOf c = some ptr ∧ (args c).cpuIndex.toNat = i ∧
      percpu.Of (args c) ∧ percpu.selfPtr = ptr := by
  unfold CurrentCpu.getCpu at hget
  split at hget
  · cases hget
  · split at hget
    · cases hget
    · rename_i hslot
      obtain ⟨found, hmem, heq⟩ := Option.map_eq_some_iff.mp hget
      cases heq
      obtain ⟨c, hc, hptr, hindex⟩ := h.slots i hslot
      obtain ⟨-, percpu', hmem', hof, hself⟩ := h.data c _ hptr
      obtain rfl : percpu' = percpu := Option.some.inj (hmem'.symm.trans hmem)
      refine ⟨c, hc, hptr, hindex, hof, hself ?_⟩
      intro hpc
      simp [State.Entered, hpc] at hc

omit [DecidableEq C] in
/-- An index that one core alone has leads to the data that the core finds itself. -/
theorem Inv.getCpu_eq_getCurrentCpu (h : Inv args s) (hbound : Bounded args s)
    (hc : s.pc c = .registered)
    (halone : ∀ d, (args d).cpuIndex = (args c).cpuIndex → d = c) :
    CurrentCpu.getCpu s (args c).cpuIndex.toNat = CurrentCpu.getCurrentCpu s c := by
  obtain ⟨percpu, hcurrent, -, hmem⟩ := h.getCurrentCpu hc
  have hslot := h.entered c (by simp [State.Entered, hc])
  obtain ⟨d, -, hptr, hindex⟩ := h.slots _ hslot
  obtain rfl := halone d (BitVec.eq_of_toNat_eq hindex)
  have hptr' : s.ptrOf d = some (s.gsBase d) := by rw [State.ptrOf, hc]
  have harray : s.array (args d).cpuIndex.toNat = s.gsBase d :=
    Option.some.inj (hptr.symm.trans hptr')
  have hlt := hbound d
  rw [hc] at hlt
  rw [hcurrent, CurrentCpu.getCpu, if_neg (Nat.not_le.mpr hlt), if_neg hslot, harray, hmem]
  rfl

/-- A write through the reference that `d` gets is seen by `d` and by no other core. -/
theorem Inv.getCurrentCpu_update (h : Inv args s) (hc : s.pc c = .registered)
    (hd : s.pc d = .registered) (w : Write) :
    CurrentCpu.getCurrentCpu (s.update (s.gsBase d) fun percpu => w.apply percpu) c =
      (CurrentCpu.getCurrentCpu s c).map fun (ptr, percpu) =>
        (ptr, if c = d then w.apply percpu else percpu) := by
  obtain ⟨percpu, hcurrent, hof, hmem⟩ := h.getCurrentCpu hc
  obtain ⟨-, percpu', hmem', -, hself⟩ := h.data c (s.gsBase c) (by rw [State.ptrOf, hc])
  obtain rfl : percpu' = percpu := Option.some.inj (hmem'.symm.trans hmem)
  have hself := hself (by simp [hc])
  rw [hcurrent, Option.map_some]
  by_cases hcd : c = d
  · subst hcd
    simp only [↓reduceIte]
    refine getCurrentCpu_eq ?_ ((w.apply_selfPtr _).trans hself)
    simp [State.update, hmem]
  · simp only [if_neg hcd]
    refine getCurrentCpu_eq ?_ hself
    exact (Function.update_of_ne (h.gsBase_ne hc hd hcd) ..).trans hmem

theorem Inv.coreStep_isSome (h : Inv args s) (hptr : s.ptrOf c = some ptr)
    (hc : s.pc c ≠ .registered) : (coreStep s c).isSome := by
  obtain ⟨-, percpu, hmem, -⟩ := h.data c ptr hptr
  rw [State.ptrOf] at hptr
  cases hpc : s.pc c with
  | registered => exact absurd hpc hc
  | start | panicked => simp [hpc] at hptr
  | pointing q | boxed q | storing q | settingGs q =>
      obtain rfl : q = ptr := by simpa [hpc] using hptr
      simp [coreStep, hpc, hmem]

/-- **Each core finds its own data.** However the cores register, and whatever is
written to their data meanwhile: no core gets stuck on data that is not there, and the
ones that panic have an index that is too large. A core that is through finds by its
GS base data with its own index, APIC ID and role and with the right self-pointer; no
two find the same; what one core writes to what it found is what it finds afterwards,
and changes nothing for the others. What `getCpu` finds at an index is the complete
data of a core with that index, and if no other core has the index, the one that this
core finds itself. -/
theorem current_cpu (args : C → Args) {gsBase : C → BitVec 64} {s : State C}
    (hreach : Reachable (step args) (init gsBase) s) :
    (∀ c, coreStep s c = none → s.pc c = .start ∨ s.pc c = .registered ∨
      s.pc c = .panicked ∧ maxCpus ≤ (args c).cpuIndex.toNat) ∧
    (∀ c, s.pc c = .registered → ∃ percpu,
      getCurrentCpu s c = some (s.gsBase c, percpu) ∧ percpu.Of (args c)) ∧
    (∀ c d, s.pc c = .registered → s.pc d = .registered → c ≠ d →
      s.gsBase c ≠ s.gsBase d) ∧
    (∀ c d w s', s.pc c = .registered → s.pc d = .registered →
      step args s (.write (s.gsBase d) w) = some s' →
      getCurrentCpu s' c = (getCurrentCpu s c).map fun (ptr, percpu) =>
        (ptr, if c = d then w.apply percpu else percpu)) ∧
    (∀ i ptr percpu, getCpu s i = some (ptr, percpu) → percpu.selfPtr = ptr ∧
      ∃ c, (args c).cpuIndex.toNat = i ∧ percpu.Of (args c)) ∧
    ∀ c, s.pc c = .registered → (∀ d, (args d).cpuIndex = (args c).cpuIndex → d = c) →
      getCpu s (args c).cpuIndex.toNat = getCurrentCpu s c := by
  obtain ⟨hinv, hbound⟩ := inv_of_reachable hreach
  refine ⟨fun c hc => ?_, fun c hc => ?_, fun c d hc hd => hinv.gsBase_ne hc hd,
    fun c d w s' hc hd hstep => ?_, fun i ptr percpu hget => ?_,
    fun c hc => hinv.getCpu_eq_getCurrentCpu hbound hc⟩
  · cases hptr : s.ptrOf c with
    | some ptr =>
        refine .inr (.inl ?_)
        by_contra hne
        have hsome := hinv.coreStep_isSome hptr hne
        rw [hc] at hsome
        cases hsome
    | none =>
        have hle := hbound c
        rw [State.ptrOf] at hptr
        cases hpc : s.pc c with
        | start => exact .inl rfl
        | panicked =>
            rw [hpc] at hle
            exact .inr (.inr ⟨rfl, hle⟩)
        | pointing | boxed | storing | settingGs | registered => simp [hpc] at hptr
  · obtain ⟨percpu, hcurrent, hof, -⟩ := hinv.getCurrentCpu hc
    exact ⟨percpu, hcurrent, hof⟩
  · obtain ⟨-, heq⟩ := Option.ite_none_right_eq_some.mp hstep
    cases heq
    exact hinv.getCurrentCpu_update hc hd w
  · obtain ⟨c, -, -, hindex, hof, hself⟩ := hinv.getCpu hget
    exact ⟨hself, c, hindex, hof⟩

/-- Two cores register at once, with the same index by mistake. -/
def sameIndex : List (Label Bool) :=
  [.alloc true 0x1000, .alloc false 0x2000, .step true, .step false, .step false, .step true,
    .step false, .step true, .step true, .step false]

/-- The array has lost one of the two, and each still finds its own data. -/
theorem current_cpu_same_index :
    ∃ s, run (step fun c => ⟨1, if c then 5 else 6, false⟩) (init fun _ => 0) sameIndex = some s ∧
      getCpu s 1 = getCurrentCpu s true ∧ s.gsBase true ≠ s.gsBase false ∧
      ∃ percpu, getCurrentCpu s false = some (s.gsBase false, percpu) ∧
        percpu.Of ⟨1, 6, false⟩ := by
  refine ⟨_, rfl, by decide, ?_⟩
  let args : Bool → Args := fun c => ⟨1, if c then 5 else 6, false⟩
  have hreach : Reachable (step args) (init fun _ => 0) _ := ⟨sameIndex, rfl⟩
  obtain ⟨-, hfinds, hdistinct, -⟩ := current_cpu args hreach
  exact ⟨hdistinct true false rfl rfl (by decide), hfinds false rfl⟩

end SmpNostd.CurrentCpu
