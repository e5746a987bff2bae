import Mukrn.Kernel.Syscall

/-! Trap handling and scheduling of `idt.c`, and the transition system whose steps are
traps. `sys_nanosleep` halts inside a trap, so a system is also in a state where it waits
there for the next interrupt. -/
namespace Mukrn
open ByteMemory

/-- The slots `schedule_next` looks at, in order. -/
def scanOrder (s : Kernel) (c : ℕ) : List ℕ :=
  (List.range (s.numTasks - 1)).map fun k => (c + (k + 1)) % s.numTasks

def isReady (s : Kernel) (i : ℕ) : Bool := (s.tasks i).state == .ready

/-- The index is `c` itself when no other slot is ready, whatever the state of `c`. -/
def scheduleNext (s : Kernel) (c : ℕ) : Kernel × ℕ :=
  if s.numTasks ≤ 1 then (s, c)
  else
    match (scanOrder s c).find? (isReady s) with
    | some n => (s.setState n .running, n)
    | none => (s, c)

def saveFrame (s : Kernel) (c : ℕ) (r : Registers) : Kernel :=
  let dst := (s.tasks c).stackPhys
  { s.setTask c { s.tasks c with rsp := dst } with
    machine := { s.machine with mem := storeFrame s.machine.mem dst r } }

/-- How a trap ends: in user mode with the frame given, inside a sleep, or halted. -/
inductive Outcome where
  | resume (s : Kernel) (r : Registers)
  | asleep (s : Kernel) (r : Registers) (start target : ℕ)
  | stopped (s : Kernel)

/-- Make slot `n` current under its own root and load its saved frame. -/
def dispatch (s : Kernel) (n : ℕ) : Outcome :=
  let s := { s.setState n .running with currentTask := some n }
  let pml4 := (s.tasks n).pml4Phys
  let s := { s with machine := if pml4 ≠ 0 then pagingSwitch s.machine pml4 else s.machine }
  .resume s (loadFrame s.machine.mem (s.tasks n).rsp)

/-- State in which `schedule` chooses: the frame is saved and the task is ready again. -/
def preempt (s : Kernel) (c : ℕ) (r : Registers) : Kernel := (saveFrame s c r).setState c .ready

def schedule (s : Kernel) (c : ℕ) (r : Registers) : Outcome :=
  let (s, next) := scheduleNext (preempt s c r) c
  dispatch s next

/-- State in which the system-call path chooses: a blocked or exited caller stays so. -/
def yieldCaller (s : Kernel) (c : ℕ) (r : Registers) : Kernel :=
  let s := saveFrame s c r
  if (s.tasks c).state ≠ .blocked ∧ (s.tasks c).state ≠ .exited then s.setState c .ready else s

/-- The end of the `0x80` branch. A single task is resumed as it is. A trap from user mode
always finds a current task. -/
def afterSyscall (s : Kernel) (r : Registers) : Outcome :=
  if 1 < s.numTasks then
    match s.currentTask with
    | none => .stopped s
    | some c =>
      let (s, next) := scheduleNext (yieldCaller s c r) c
      dispatch s next
  else .resume s r

/-- The keyboard branch: deliver the scan code to the registered task if it has room. -/
def keyboardIrq (s : Kernel) (sc : UInt8) : Kernel :=
  match s.irqHandlers 1 with
  | none => s
  | some i =>
    if i < maxTasks ∧ s.live i ∧ (s.tasks i).ipcCount < ipcQueueSize then
      s.setTask i ((s.tasks i).enqueue 0 0 1 fun _ => sc)
    else s

/-- What vectors 32 to 47 do besides scheduling. -/
def irqEffect (s : Kernel) (io : Ports) (n : ℕ) : Kernel :=
  if n = 32 then { s with ticks := (s.ticks + 1) % 2 ^ 64 }
  else if n = 33 then keyboardIrq s (io.inb 0x60)
  else s

/-- A user page fault ends the task; the first ready slot runs next. -/
def pageFaultKill (s : Kernel) : Outcome :=
  let s := sysExit s
  match (List.range s.numTasks).find? (isReady s) with
  | some i => dispatch s i
  | none => .stopped s

/-- Continue after a system call has returned, gone to sleep or stopped. -/
def finishSyscall (r : Registers) : SysOutcome → Outcome
  | .done rax s => afterSyscall s { r with rax := .ofNat rax }
  | .asleep s start target => .asleep s r start target
  | .stopped s => .stopped s

def Registers.syscall (r : Registers) : Syscall :=
  .decode r.rax.toNat r.rdi.toNat r.rsi.toNat r.rdx.toNat r.rcx.toNat

/-- The interrupted code ran in user mode. -/
def Registers.fromUser (r : Registers) : Bool := r.cs.toNat % 4 != 0

/-- `none` when the kernel faults on a pointer of the caller. -/
def isrHandler (s : Kernel) (io : Ports) (r : Registers) : Option Outcome :=
  let n := r.intNo.toNat
  if n ≤ 31 then
    some (if n = 14 ∧ r.fromUser then pageFaultKill s else .stopped s)
  else if n ≤ 47 then
    let s := irqEffect s io n
    match s.currentTask with
    | none => some (.resume s r)
    | some c =>
      some (if n = 32 ∧ 1 < s.numTasks ∧ r.fromUser then schedule s c r else .resume s r)
  else if n = 0x80 then (syscallHandler s io r.syscall).map (finishSyscall r)
  else some (.resume s r)

/-- Where the processor is between two traps. -/
inductive Phase where
  | user (r : Registers)
  | asleep (r : Registers) (start target : ℕ)
  | stopped

structure System where
  kernel : Kernel
  phase : Phase

/-- A trap of the running task with its frame, an interrupt that ends a `hlt`, or a store of
the running task between two traps. -/
inductive Input where
  | trap (io : Ports) (r : Registers)
  | irq (io : Ports) (n : ℕ)
  | store (virt : ℕ) (b : UInt8)

def Outcome.system : Outcome → System
  | .resume s r => ⟨s, .user r⟩
  | .asleep s r start target => ⟨s, .asleep r start target⟩
  | .stopped s => ⟨s, .stopped⟩

/-- One step. An interrupt during a sleep comes from kernel mode and never schedules. -/
def step (x : System) (i : Input) : Option System :=
  match x.phase, i with
  | .user _, .trap io r => (isrHandler x.kernel io r).map Outcome.system
  | .asleep r start target, .irq io n =>
    if 32 ≤ n ∧ n ≤ 47 then
      some (finishSyscall r (sleepLoop (irqEffect x.kernel io n) start target)).system
    else none
  | .user r, .store virt b =>
    (userStore x.kernel.machine virt b).map fun h => ⟨{ x.kernel with machine := h }, .user r⟩
  | _, _ => none

end Mukrn
