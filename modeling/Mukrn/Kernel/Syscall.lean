import Mukrn.Kernel.Lifecycle
import Mukrn.Kernel.Elf

/-! The system-call switch of `syscall.c`. Port output has no effect on the modelled state;
port input is supplied from outside. -/
namespace Mukrn

/-- What the next `inb` or `inw` from each port returns. -/
structure Ports where
  inb : ℕ → UInt8
  inw : ℕ → UInt16

/-- Ports on which nothing arrives. -/
def quietPorts : Ports := ⟨fun _ => 0, fun _ => 0⟩

/-- A decoded request: the cases of the switch with the arguments they use. -/
inductive Syscall where
  | exit
  | getpid
  | send (targetPid type data len : ℕ)
  | recv (msg : ℕ)
  | inb (port : ℕ)
  | outb
  | wait (pid : ℕ)
  | waitAny
  | getstate (pid : ℕ)
  | irqRegister (irq : ℕ)
  | mmap (virt size flags : ℕ)
  | munmap (virt size : ℕ)
  | kill (pid : ℕ)
  | nanosleep (ns : ℕ)
  | getticks
  | debugPutc
  | shutdown
  | mprotect (virt size flags : ℕ)
  | brk (addr : ℕ)
  | irqAck
  | clone (flags userStack entry arg : ℕ)
  | futex (uaddr : ℕ) (op : ℤ) (val : ℕ)
  | mmapPhys (virt phys size flags : ℕ)
  | inw (port : ℕ)
  | outw
  | spawnAt (addr size : ℕ)
  | yield
  | unknown
  deriving DecidableEq, Repr

/-- Number 6 is unused. Arguments are narrowed as the switch narrows them. -/
def Syscall.decode (n arg1 arg2 arg3 arg4 : ℕ) : Syscall :=
  match n with
  | 0 => .exit
  | 1 => .getpid
  | 2 => .send arg1 arg2 arg3 arg4
  | 3 => .recv arg1
  | 4 => .inb (arg1 % 2 ^ 16)
  | 5 => .outb
  | 7 => .wait arg1
  | 8 => .waitAny
  | 9 => .getstate arg1
  | 10 => .irqRegister arg1
  | 11 => .mmap arg1 arg2 arg3
  | 12 => .munmap arg1 arg2
  | 13 => .kill arg1
  | 14 => .nanosleep arg1
  | 15 => .getticks
  | 16 => .debugPutc
  | 17 => .shutdown
  | 18 => .mprotect arg1 arg2 arg3
  | 19 => .brk arg1
  | 20 => .irqAck
  | 21 => .clone arg1 arg2 arg3 arg4
  | 22 => .futex arg1 (toInt arg2) (arg3 % 2 ^ 32)
  | 23 => .mmapPhys arg1 arg2 arg3 arg4
  | 24 => .inw (arg1 % 2 ^ 16)
  | 25 => .outw
  | 26 => .spawnAt arg1 arg2
  | 27 => .yield
  | _ => .unknown

/-- How a request ends: with a value for `rax`, inside the `hlt` loop of `sys_nanosleep`,
or in the loop of `sys_shutdown`. -/
inductive SysOutcome where
  | done (rax : ℕ) (s : Kernel)
  | asleep (s : Kernel) (start target : ℕ)
  | stopped (s : Kernel)

def sysIrqRegister (s : Kernel) (irq : ℕ) : ℤ × Kernel :=
  if 16 ≤ irq then (-1, s)
  else
    match s.currentTask with
    | none => (-1, s)
    | some c => (0, { s with irqHandlers := Function.update s.irqHandlers irq (some c) })

/-- The test of the sleep loop; tick arithmetic wraps at 64 bits. -/
def stillAsleep (s : Kernel) (start target : ℕ) : Bool :=
  (s.ticks + 2 ^ 64 - start) % 2 ^ 64 < target

/-- One evaluation of the loop of `sys_nanosleep`: halt once more, or return `0`. -/
def sleepLoop (s : Kernel) (start target : ℕ) : SysOutcome :=
  if stillAsleep s start target then .asleep (s.setCurrentState .blocked) start target
  else .done 0 (s.setCurrentState .running)

/-- The timer runs at 500 Hz. -/
def sysNanosleep (s : Kernel) (ns : ℕ) : SysOutcome := sleepLoop s s.ticks (ns / 2000000)

/-- A call that returns a C `int`. -/
def returnInt (p : ℤ × Kernel) : SysOutcome := .done (toU64 p.1) p.2

/-- `none` when the kernel faults on a pointer of the caller. -/
def syscallHandler (s : Kernel) (io : Ports) : Syscall → Option SysOutcome
  | .exit => some (.done 0 (sysExit s))
  | .getpid => some (.done (sysGetpid s) s)
  | .send targetPid type data len => (sysSend s targetPid type data len).map returnInt
  | .recv msg => (sysRecv s msg).map returnInt
  | .inb port => some (.done (io.inb port).toNat s)
  | .outb => some (.done 0 s)
  | .wait pid => some (returnInt (sysWait s pid))
  | .waitAny => some (returnInt (sysWaitAny s))
  | .getstate pid => some (.done (toU64 (sysGetstate s pid)) s)
  | .irqRegister irq => some (returnInt (sysIrqRegister s irq))
  | .mmap virt size flags => some (returnInt (sysMmap s virt size flags))
  | .munmap virt size => some (returnInt (sysMunmap s virt size))
  | .kill pid => some (returnInt (sysKill s pid))
  | .nanosleep ns => some (sysNanosleep s ns)
  | .getticks => some (.done s.ticks s)
  | .debugPutc => some (.done 0 s)
  | .shutdown => some (.stopped s)
  | .mprotect virt size flags => some (returnInt (sysMprotect s virt size flags))
  | .brk addr => some (returnInt (sysBrk s addr))
  | .irqAck => some (.done 0 s)
  | .clone flags userStack entry arg => some (returnInt (sysClone s flags userStack entry arg))
  | .futex uaddr op val => (sysFutex s uaddr op val).map returnInt
  | .mmapPhys virt phys size flags => some (returnInt (sysMmapPhys s virt phys size flags))
  | .inw port => some (.done (io.inw port).toNat s)
  | .outw => some (.done 0 s)
  | .spawnAt addr size => (sysSpawnAt s addr size).map returnInt
  | .yield => some (.done 0 s)
  | .unknown => some (.done 0 s)

/-- The trap frame of a user task that makes a system call. -/
def Registers.call (n a b c d : ℕ) : Registers :=
  { Registers.initial 0 0 a with
    intNo := 0x80
    rax := .ofNat n
    rsi := .ofNat b
    rdx := .ofNat c
    rcx := .ofNat d }

end Mukrn
