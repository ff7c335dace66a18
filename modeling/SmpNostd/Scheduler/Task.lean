import Mathlib.Tactic.Common

/-!
Tasks (`scheduler.rs`): the saved CPU context, and the bookkeeping the
scheduler reads and writes.
-/

namespace SmpNostd

/-- Task execution state. -/
inductive TaskState
  /-- Ready to run and sitting in a run queue. -/
  | ready
  /-- Currently executing on a core. -/
  | running
  /-- Blocked waiting for an event. -/
  | blocked
  /-- Finished. -/
  | dead
  deriving DecidableEq, Repr

/-- Register context saved during a context switch, in the order of the
source's `repr(C)` struct. -/
structure CpuContext where
  rsp : BitVec 64
  rbp : BitVec 64
  rbx : BitVec 64
  r12 : BitVec 64
  r13 : BitVec 64
  r14 : BitVec 64
  r15 : BitVec 64
  rip : BitVec 64
  rflags : BitVec 64
  rax : BitVec 64
  rcx : BitVec 64
  rdx : BitVec 64
  rsi : BitVec 64
  rdi : BitVec 64
  r8 : BitVec 64
  r9 : BitVec 64
  r10 : BitVec 64
  r11 : BitVec 64
  cs : BitVec 64
  ss : BitVec 64
  deriving DecidableEq, Repr

/-- A zeroed context. -/
def CpuContext.zeroed : CpuContext where
  rsp := 0
  rbp := 0
  rbx := 0
  r12 := 0
  r13 := 0
  r14 := 0
  r15 := 0
  rip := 0
  rflags := 0
  rax := 0
  rcx := 0
  rdx := 0
  rsi := 0
  rdi := 0
  r8 := 0
  r9 := 0
  r10 := 0
  r11 := 0
  cs := 0
  ss := 0

/-- The initial context of a new task: interrupts enabled, kernel code and
data segments, the argument in `rdi`. -/
def CpuContext.newTask (entry stackTop arg : BitVec 64) : CpuContext :=
  { CpuContext.zeroed with
    rsp := stackTop
    rbp := stackTop
    rip := entry
    rflags := 0x200
    rdi := arg
    cs := 0x08
    ss := 0x10 }

/-- A schedulable task. Of the stack it owns only the address and the size
matter here. -/
structure Task where
  id : ℕ
  name : String
  state : TaskState
  context : CpuContext
  stackPtr : BitVec 64
  stackSize : BitVec 64
  /-- If some, the task can only run on the specified core. -/
  affinity : Option ℕ
  assignedCore : Option ℕ
  deriving DecidableEq, Repr

/-- A new task. `id` is what the global counter gives out and `stackPtr` where
the allocator puts the stack. -/
def Task.new (id : ℕ) (stackPtr : BitVec 64) (name : String) (entry arg : BitVec 64)
    (stackSize : BitVec 64) : Task where
  id := id
  name := name
  state := .ready
  context := CpuContext.newTask entry ((stackPtr + stackSize) &&& ~~~0xF) arg
  stackPtr := stackPtr
  stackSize := stackSize
  affinity := none
  assignedCore := none

/-- Pin a task to a core. -/
def Task.withAffinity (task : Task) (coreId : ℕ) : Task :=
  { task with affinity := some coreId }

def Task.setState (task : Task) (state : TaskState) : Task :=
  { task with state := state }

/-- What the scheduler itself looks at in a task and does to it. The queues
only move tasks around. -/
class TaskLike (τ : Type) where
  affinity : τ → Option ℕ
  setState : τ → TaskState → τ

instance : TaskLike Task where
  affinity := Task.affinity
  setState := Task.setState

end SmpNostd
