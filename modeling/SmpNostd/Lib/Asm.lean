import Mathlib.Data.List.Nodup
import Mathlib.Logic.Function.Basic
import SmpNostd.Lib.Memory

/-!
Straight-line assembly of an x86-64 processor at privilege level 0.

A block is a list of instructions; it is run from the first to the last, and a
jump can only be at its end. All of memory can be read and written. Two kinds of
sequences have rules of their own: saving some registers to fields of a structure
that another register points to, and restoring them from there.
-/

namespace SmpNostd.Asm

open Memory

/-! ### The processor -/

inductive Reg
  | rax
  | rcx
  | rdx
  | rbx
  | rsp
  | rbp
  | rsi
  | rdi
  | r8
  | r9
  | r10
  | r11
  | r12
  | r13
  | r14
  | r15
  deriving DecidableEq, Repr

/-- The bits of RFLAGS that `popfq` can set. -/
def flagBits : BitVec 64 := 0x247FD5

/-- The flags, without the reserved bits of RFLAGS. -/
structure Flags where
  bits : BitVec 64
  defined : bits &&& flagBits = bits
  deriving DecidableEq

namespace Flags

/-- What `pushfq` pushes: bit 1 is reserved and always set. -/
def pushed (flags : Flags) : BitVec 64 := flags.bits ||| 2

/-- The flags that `popfq` takes from what it pops. -/
def popped (v : BitVec 64) : Flags where
  bits := v &&& flagBits
  defined := by rw [BitVec.and_assoc, BitVec.and_self]

theorem popped_pushed (flags : Flags) : popped flags.pushed = flags := by
  obtain ⟨bits, hdefined⟩ := flags
  have hreserved : (2 : BitVec 64) &&& flagBits = 0 := by decide
  simp only [popped, pushed, mk.injEq]
  rw [BitVec.and_comm, BitVec.and_or_distrib_left, BitVec.and_comm, hdefined, BitVec.and_comm,
    hreserved]
  exact BitVec.or_zero

end Flags

/-- `rip` is where execution goes on after the block. -/
structure State where
  regs : Reg → BitVec 64
  flags : Flags
  rip : BitVec 64
  mem : Mem

inductive Instr
  /-- `mov [base + disp], src` -/
  | store (base : Reg) (disp : ℕ) (src : Reg)
  /-- `mov dst, [base + disp]` -/
  | load (dst base : Reg) (disp : ℕ)
  /-- `lea dst, [rip + label]`, with the address of the label. -/
  | lea (dst : Reg) (label : BitVec 64)
  | push (src : Reg)
  | pop (dst : Reg)
  | pushfq
  | popfq
  | jmp (target : Reg)
  deriving DecidableEq, Repr

def State.set (s : State) (dst : Reg) (v : BitVec 64) : State :=
  { s with regs := Function.update s.regs dst v }

/-- The address `[base + disp]`. -/
def State.addr (s : State) (base : Reg) (disp : ℕ) : ℕ :=
  (s.regs base + BitVec.ofNat 64 disp).toNat

/-- The address of the next word that is pushed. -/
def State.slot (s : State) : ℕ := (s.regs .rsp - 8).toNat

def State.pushWord (s : State) (v : BitVec 64) : State :=
  { s.set .rsp (s.regs .rsp - 8) with mem := Memory.store s.mem s.slot v }

/-- The word on top of the stack. -/
def State.top (s : State) : BitVec 64 := Memory.load 64 s.mem (s.regs .rsp).toNat

def State.popWord (s : State) : State := s.set .rsp (s.regs .rsp + 8)

def exec (s : State) : Instr → State
  | .store base disp src => { s with mem := Memory.store s.mem (s.addr base disp) (s.regs src) }
  | .load dst base disp => s.set dst (Memory.load 64 s.mem (s.addr base disp))
  | .lea dst label => s.set dst label
  | .push src => s.pushWord (s.regs src)
  | .pop dst => s.popWord.set dst s.top
  | .pushfq => s.pushWord s.flags.pushed
  | .popfq => { s.popWord with flags := .popped s.top }
  | .jmp target => { s with rip := s.regs target }

/-- Run a block. -/
def execAll (s : State) (block : List Instr) : State := block.foldl exec s

/-- The instruction pushes a word. -/
def Instr.pushes : Instr → Bool
  | .push _ | .pushfq => true
  | .store .. | .load .. | .lea .. | .pop _ | .popfq | .jmp _ => false

/-- The addresses of the words that a block pushes, in order. -/
def pushed (s : State) : List Instr → List ℕ
  | [] => []
  | i :: block => (if i.pushes then [s.slot] else []) ++ pushed (exec s i) block

variable {s : State} {base r : Reg} {disp a x : ℕ}

@[simp] theorem execAll_nil (s : State) : execAll s [] = s := rfl

@[simp] theorem execAll_cons (s : State) (i : Instr) (block : List Instr) :
    execAll s (i :: block) = execAll (exec s i) block := rfl

theorem execAll_append (s : State) (block block' : List Instr) :
    execAll s (block ++ block') = execAll (execAll s block) block' :=
  List.foldl_append

theorem pushed_append (s : State) (block block' : List Instr) :
    pushed s (block ++ block') = pushed s block ++ pushed (execAll s block) block' := by
  induction block generalizing s with
  | nil => rfl
  | cons i block ih =>
      rw [List.cons_append, pushed, ih, pushed, List.append_assoc, execAll_cons]

theorem pushed_eq_nil {block : List Instr} (h : ∀ i ∈ block, i.pushes = false) :
    pushed s block = [] := by
  induction block generalizing s with
  | nil => rfl
  | cons i block ih =>
      obtain ⟨hi, hblock⟩ := List.forall_mem_cons.mp h
      rw [pushed, ih hblock, if_neg (by rw [hi]; decide), List.append_nil]

@[simp] theorem set_regs_self (s : State) (dst : Reg) (v : BitVec 64) :
    (s.set dst v).regs dst = v :=
  Function.update_self ..

theorem set_regs_of_ne (h : r ≠ base) (v : BitVec 64) : (s.set base v).regs r = s.regs r :=
  Function.update_of_ne h ..

theorem addr_eq (h : (s.regs base).toNat + disp < 2 ^ 64) :
    s.addr base disp = (s.regs base).toNat + disp := by
  rw [State.addr, BitVec.toNat_add, BitVec.toNat_ofNat, Nat.add_mod_mod, Nat.mod_eq_of_lt h]

theorem set_addr_of_ne (h : base ≠ r) (v : BitVec 64) :
    (s.set r v).addr base disp = s.addr base disp := by
  rw [State.addr, set_regs_of_ne h, State.addr]

theorem set_slot_of_ne (h : .rsp ≠ r) (v : BitVec 64) : (s.set r v).slot = s.slot := by
  rw [State.slot, set_regs_of_ne h, State.slot]

/-! ### Flags by way of the stack -/

theorem top_pushWord (s : State) (v : BitVec 64) : (s.pushWord v).top = v := by
  rw [State.top, State.pushWord, set_regs_self]
  exact load_store_self (by decide) v

theorem popWord_pushWord (s : State) (v : BitVec 64) :
    (s.pushWord v).popWord = { s with mem := Memory.store s.mem s.slot v } := by
  simp only [State.popWord, State.pushWord, State.set, Function.update_self, Function.update_idem,
    BitVec.sub_add_cancel, Function.update_eq_self]

theorem exec_pushfq_pop (s : State) (dst : Reg) : exec (exec s .pushfq) (.pop dst) =
    { s.set dst s.flags.pushed with mem := Memory.store s.mem s.slot s.flags.pushed } := by
  rw [exec, exec, top_pushWord, popWord_pushWord]
  rfl

theorem exec_push_popfq (s : State) (src : Reg) : exec (exec s (.push src)) .popfq =
    { s with
      flags := .popped (s.regs src)
      mem := Memory.store s.mem s.slot (s.regs src) } := by
  rw [exec, exec, top_pushWord, popWord_pushWord]

/-! ### Saving and restoring registers -/

/-- A field of a structure, by its offset, and the register that is kept in it. -/
abbrev Field := ℕ × Reg

def saves (base : Reg) (fields : List Field) : List Instr :=
  fields.map fun f => .store base f.1 f.2

def restores (base : Reg) (fields : List Field) : List Instr :=
  fields.map fun f => .load f.2 base f.1

/-- The memory after registers have been saved to the fields of a structure at
`a`. -/
def storeFields (mem : Mem) (a : ℕ) (regs : Reg → BitVec 64) (fields : List Field) : Mem :=
  fields.foldl (fun mem f => Memory.store mem (a + f.1) (regs f.2)) mem

/-- The registers after they have been restored from there. -/
def loadFields (mem : Mem) (a : ℕ) (regs : Reg → BitVec 64) (fields : List Field) :
    Reg → BitVec 64 :=
  fields.foldl (fun regs f => Function.update regs f.2 (Memory.load 64 mem (a + f.1))) regs

variable {fields : List Field} {f : Field} {mem : Mem} {regs : Reg → BitVec 64}

theorem execAll_saves (hfits : ∀ f ∈ fields, (s.regs base).toNat + f.1 < 2 ^ 64) :
    execAll s (saves base fields) =
      { s with mem := storeFields s.mem (s.regs base).toNat s.regs fields } := by
  induction fields generalizing s with
  | nil => rfl
  | cons f fields ih =>
      obtain ⟨hf, hfits⟩ := List.forall_mem_cons.mp hfits
      rw [saves, List.map_cons, execAll_cons, exec, addr_eq hf]
      exact ih hfits

theorem storeFields_cons (mem : Mem) (a : ℕ) (regs : Reg → BitVec 64) (f : Field)
    (fields : List Field) : storeFields mem a regs (f :: fields) =
      storeFields (Memory.store mem (a + f.1) (regs f.2)) a regs fields := rfl

theorem loadFields_cons (mem : Mem) (a : ℕ) (regs : Reg → BitVec 64) (f : Field)
    (fields : List Field) : loadFields mem a regs (f :: fields) =
      loadFields mem a (Function.update regs f.2 (Memory.load 64 mem (a + f.1))) fields := rfl

theorem storeFields_outside (h : ∀ f ∈ fields, x < a + f.1 ∨ a + f.1 + 8 ≤ x) :
    storeFields mem a regs fields x = mem x := by
  induction fields generalizing mem with
  | nil => rfl
  | cons f fields ih =>
      obtain ⟨hf, hfields⟩ := List.forall_mem_cons.mp h
      rw [storeFields_cons]
      exact (ih hfields).trans (store_outside hf)

/-- A saved register is found in its field. -/
theorem load_storeFields (hapart : fields.Pairwise fun f g => f.1 + 8 ≤ g.1 ∨ g.1 + 8 ≤ f.1)
    (hf : f ∈ fields) : Memory.load 64 (storeFields mem a regs fields) (a + f.1) = regs f.2 := by
  induction fields generalizing mem with
  | nil => cases hf
  | cons g fields ih =>
      obtain ⟨hg, hfields⟩ := List.pairwise_cons.mp hapart
      rw [storeFields_cons]
      rcases List.mem_cons.mp hf with rfl | hf
      · have hkept : ∀ k < 8, storeFields (Memory.store mem (a + f.1) (regs f.2)) a regs fields
            (a + f.1 + k) = Memory.store mem (a + f.1) (regs f.2) (a + f.1 + k) := by
          intro k hk
          refine storeFields_outside fun g hmem => ?_
          obtain h | h := hg g hmem <;> omega
        exact (load_congr hkept).trans (load_store_self (by decide) _)
      · exact ih hfields hf

theorem execAll_restores (hfits : ∀ f ∈ fields, (s.regs base).toNat + f.1 < 2 ^ 64)
    (hbase : ∀ f ∈ fields, f.2 ≠ base) :
    execAll s (restores base fields) =
      { s with regs := loadFields s.mem (s.regs base).toNat s.regs fields } := by
  induction fields generalizing s with
  | nil => rfl
  | cons f fields ih =>
      obtain ⟨hf, hfits⟩ := List.forall_mem_cons.mp hfits
      obtain ⟨hne, hbase⟩ := List.forall_mem_cons.mp hbase
      rw [restores, List.map_cons, execAll_cons, exec, addr_eq hf]
      have hkept := set_regs_of_ne (s := s) hne.symm
        (Memory.load 64 s.mem ((s.regs base).toNat + f.1))
      have hrest := ih (s := s.set f.2 (Memory.load 64 s.mem ((s.regs base).toNat + f.1)))
        (by rwa [hkept]) hbase
      rw [hkept] at hrest
      exact hrest

theorem loadFields_of_notMem (h : ∀ f ∈ fields, f.2 ≠ r) :
    loadFields mem a regs fields r = regs r := by
  induction fields generalizing regs with
  | nil => rfl
  | cons f fields ih =>
      obtain ⟨hf, hfields⟩ := List.forall_mem_cons.mp h
      rw [loadFields_cons]
      exact (ih hfields).trans (Function.update_of_ne hf.symm ..)

/-- A restored register has what was in its field. -/
theorem loadFields_of_mem (hnodup : (fields.map Prod.snd).Nodup) (hf : f ∈ fields) :
    loadFields mem a regs fields f.2 = Memory.load 64 mem (a + f.1) := by
  induction fields generalizing regs with
  | nil => cases hf
  | cons g fields ih =>
      obtain ⟨hg, hfields⟩ := List.nodup_cons.mp hnodup
      rw [loadFields_cons]
      rcases List.mem_cons.mp hf with rfl | hf
      · have hlast : ∀ g ∈ fields, g.2 ≠ f.2 := fun g hmem heq =>
          hg (List.mem_map.mpr ⟨g, hmem, heq⟩)
        exact (loadFields_of_notMem hlast).trans (Function.update_self ..)
      · exact ih hfields hf

end SmpNostd.Asm
