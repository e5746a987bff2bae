import Mathlib.Logic.Function.Basic
import Mukrn.Kernel.Paging

/-! Task table, trap frames and the mailbox calls of `task.c`. An index that the source
initialises to `-1` is an `Option`. C `int` results are integers. -/
namespace Mukrn
open ByteMemory

def maxTasks : ℕ := 64
def ipcQueueSize : ℕ := 16
def ipcMaxData : ℕ := 64

/-- Trap frame `registers_t`, lowest address first. -/
structure Registers where
  r15 : UInt64
  r14 : UInt64
  r13 : UInt64
  r12 : UInt64
  r11 : UInt64
  r10 : UInt64
  r9 : UInt64
  r8 : UInt64
  rbp : UInt64
  rdi : UInt64
  rsi : UInt64
  rdx : UInt64
  rcx : UInt64
  rbx : UInt64
  rax : UInt64
  intNo : UInt64
  errCode : UInt64
  rip : UInt64
  cs : UInt64
  rflags : UInt64
  rsp : UInt64
  ss : UInt64
  deriving DecidableEq

namespace Registers

def words (r : Registers) : List UInt64 :=
  [r.r15, r.r14, r.r13, r.r12, r.r11, r.r10, r.r9, r.r8, r.rbp, r.rdi, r.rsi, r.rdx, r.rcx,
    r.rbx, r.rax, r.intNo, r.errCode, r.rip, r.cs, r.rflags, r.rsp, r.ss]

def ofWords (w : ℕ → UInt64) : Registers where
  r15 := w 0
  r14 := w 1
  r13 := w 2
  r12 := w 3
  r11 := w 4
  r10 := w 5
  r9 := w 6
  r8 := w 7
  rbp := w 8
  rdi := w 9
  rsi := w 10
  rdx := w 11
  rcx := w 12
  rbx := w 13
  rax := w 14
  intNo := w 15
  errCode := w 16
  rip := w 17
  cs := w 18
  rflags := w 19
  rsp := w 20
  ss := w 21

theorem ofWords_words (r : Registers) : ofWords (fun i => r.words.getD i 0) = r := rfl

/-- First frame of a new task: user segments, interrupts on, all other registers zero. -/
def initial (rip rsp rdi : ℕ) : Registers where
  r15 := 0
  r14 := 0
  r13 := 0
  r12 := 0
  r11 := 0
  r10 := 0
  r9 := 0
  r8 := 0
  rbp := 0
  rdi := .ofNat rdi
  rsi := 0
  rdx := 0
  rcx := 0
  rbx := 0
  rax := 0
  intNo := 0
  errCode := 0
  rip := .ofNat rip
  cs := 0x2B
  rflags := 0x202
  rsp := .ofNat rsp
  ss := 0x23

end Registers

/-- `sizeof(registers_t) / sizeof(u64)` words are copied. -/
def storeFrame (m : Mem) (a : ℕ) (r : Registers) : Mem :=
  storeWords m a 22 fun i => (r.words.getD i 0).toNat

def loadFrame (m : Mem) (a : ℕ) : Registers :=
  .ofWords fun i => UInt64.ofNat (load64 m (a + 8 * i))

inductive TaskState where
  | exited | ready | running | blocked
  deriving DecidableEq, Repr

/-- The value of the C enumeration. -/
def TaskState.code : TaskState → ℤ
  | .exited => 0
  | .ready => 1
  | .running => 2
  | .blocked => 3

/-- One ring slot; only the first `length` bytes of `data` are meaningful. -/
structure IpcMsg where
  senderPid : ℕ
  type : ℕ
  data : ℕ → UInt8
  length : ℕ

/-- `user_stack_phys` is written but never read and is left out. -/
structure Task where
  rsp : ℕ
  pid : ℕ
  state : TaskState
  stackPhys : ℕ
  pml4Phys : ℕ
  loadAddr : ℕ
  codePages : ℕ
  waitIdx : Option ℕ
  ipcQueue : ℕ → IpcMsg
  ipcHead : ℕ
  ipcTail : ℕ
  ipcCount : ℕ

structure FutexWaiter where
  uaddr : ℕ
  taskIdx : ℕ
  deriving DecidableEq, Repr

/-- The kernel's state. `futexWaiters` holds the first `num_futex_waiters` entries. -/
structure Kernel where
  machine : Machine
  tasks : ℕ → Task
  currentTask : Option ℕ
  numTasks : ℕ
  nextPid : ℕ
  heapBrk : ℕ
  futexWaiters : List FutexWaiter
  irqHandlers : ℕ → Option ℕ
  ticks : ℕ

namespace Kernel

def setTask (s : Kernel) (i : ℕ) (t : Task) : Kernel :=
  { s with tasks := Function.update s.tasks i t }

def setState (s : Kernel) (i : ℕ) (st : TaskState) : Kernel :=
  s.setTask i { s.tasks i with state := st }

/-- `tasks[current_task].state = st`; before the scheduler starts there is no such slot. -/
def setCurrentState (s : Kernel) (st : TaskState) : Kernel :=
  match s.currentTask with
  | none => s
  | some c => s.setState c st

def live (s : Kernel) (i : ℕ) : Bool := (s.tasks i).state != .exited

/-- First slot with this pid that has not exited. -/
def findLive (s : Kernel) (pid : ℕ) : Option ℕ :=
  (List.range s.numTasks).find? fun i => (s.tasks i).pid == pid && s.live i

/-- First slot with this pid, whatever its state. -/
def findPid (s : Kernel) (pid : ℕ) : Option ℕ :=
  (List.range s.numTasks).find? fun i => (s.tasks i).pid == pid

def currentPid (s : Kernel) : ℕ :=
  match s.currentTask with
  | none => 0
  | some c => (s.tasks c).pid

end Kernel

/-- Conversion of a 64-bit value to C `int`. -/
def toInt (n : ℕ) : ℤ := Int.bmod n (2 ^ 32)

/-- Conversion of a C `int` to `u64`. -/
def toU64 (x : ℤ) : ℕ := (x % 2 ^ 64).toNat

def taskInit (s : Kernel) : Kernel :=
  { s with tasks := fun i =>
      if i < maxTasks then { s.tasks i with state := .exited } else s.tasks i }

def ipcInitTask (t : Task) : Task := { t with ipcHead := 0, ipcTail := 0, ipcCount := 0 }

/-- The fields every creation path assigns, in a slot that may have been used before. -/
def newTask (slot : Task) (kstack pid pml4 loadAddr codePages : ℕ) : Task :=
  ipcInitTask { slot with
    rsp := kstack
    pid := pid
    state := .ready
    stackPhys := kstack
    pml4Phys := pml4
    loadAddr := loadAddr
    codePages := codePages
    waitIdx := none }

def sysGetpid (s : Kernel) : ℕ := s.currentPid

/-- Fill the slot at `ipc_head`, advance it, and make a blocked receiver ready. Bytes of
the slot past `len` keep their old contents. -/
def Task.enqueue (t : Task) (senderPid type len : ℕ) (data : ℕ → UInt8) : Task :=
  let old := t.ipcQueue t.ipcHead
  let msg : IpcMsg :=
    { senderPid, type, length := len, data := fun i => if i < len then data i else old.data i }
  { t with
    ipcQueue := Function.update t.ipcQueue t.ipcHead msg
    ipcHead := (t.ipcHead + 1) % ipcQueueSize
    ipcCount := t.ipcCount + 1
    state := if t.state = .blocked then .ready else t.state }

/-- `none` when the kernel faults on the caller's data pointer. -/
def sysSend (s : Kernel) (targetPid type data len : ℕ) : Option (ℤ × Kernel) :=
  match s.findLive targetPid with
  | none => some (-1, s)
  | some target =>
    let t := s.tasks target
    if ipcQueueSize ≤ t.ipcCount then some (-1, s)
    else
      let length := if ipcMaxData < len then ipcMaxData else len
      (readUserBytes s.machine data length).map fun bytes =>
        (0, s.setTask target (t.enqueue s.currentPid type length fun i => bytes.getD i 0))

/-- The caller's buffer is an `ipc_msg_t`: two words, 64 data bytes, the length. -/
def writeUserMsg (h : Machine) (msg : ℕ) (src : IpcMsg) : Option Machine := do
  let h ← writeUserBytes h msg 0 ((List.range 8).map (byteAt src.senderPid))
  let h ← writeUserBytes h msg 8 ((List.range 8).map (byteAt src.type))
  let h ← writeUserBytes h msg 80 ((List.range 8).map (byteAt src.length))
  writeUserBytes h msg 16 ((List.range src.length).map src.data)

def sysRecv (s : Kernel) (msg : ℕ) : Option (ℤ × Kernel) :=
  match s.currentTask with
  | none => some (-1, s)
  | some c =>
    let t := s.tasks c
    if t.ipcCount = 0 then some (-1, s)
    else
      (writeUserMsg s.machine msg (t.ipcQueue t.ipcTail)).map fun h =>
        (0, { s with machine := h }.setTask c
          { t with ipcTail := (t.ipcTail + 1) % ipcQueueSize, ipcCount := t.ipcCount - 1 })

end Mukrn
