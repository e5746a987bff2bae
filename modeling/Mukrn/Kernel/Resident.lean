import Mukrn.Kernel.Boot

/-! Kernel variables as words of memory. The model keeps the kernel's variables apart from memory,
so that they change through their names only. In the kernel they lie in its image, where a pointer
that a system call is given can reach them. Here two of them are followed in memory: `current_task`
and the pid of slot 0, which no system call assigns by name. -/
namespace Mukrn
open ByteMemory

/-- Addresses of `current_task` and of `tasks[0].pid`. -/
structure Variables where
  currentTask : ℕ
  firstPid : ℕ

namespace Variables

/-- The kernel with the values that memory holds for the two variables. -/
def reload (v : Variables) (s : Kernel) : Kernel :=
  let c := toInt (load s.machine.mem v.currentTask 4)
  { s.setTask 0 { s.tasks 0 with pid := load s.machine.mem v.firstPid 4 } with
    currentTask := if c < 0 then none else some c.toNat }

/-- Assign the two variables their values. -/
def flush (v : Variables) (s : Kernel) : Kernel :=
  let m := store s.machine.mem v.firstPid 4 (s.tasks 0).pid
  { s with machine := { s.machine with
      mem := store m v.currentTask 4 (s.currentTask.getD (2 ^ 32 - 1)) } }

def reloadOutcome (v : Variables) : SysOutcome → SysOutcome
  | .done rax s => .done rax (v.reload s)
  | .asleep s start target => .asleep (v.reload s) start target
  | .stopped s => .stopped (v.reload s)

/-- The `0x80` branch of `isr_handler`: it reads `current_task` again when the call is over, and
assigns it the slot it dispatches. -/
def call (v : Variables) (io : Ports) (s : Kernel) (r : Registers) : Option Kernel :=
  (syscallHandler s io r.syscall).map fun o =>
    v.flush (finishSyscall r (v.reloadOutcome o)).system.kernel

/-- The kernel after each of a list of system calls. -/
def calls (v : Variables) (io : Ports) : Kernel → List Registers → Option (List Kernel)
  | _, [] => some []
  | s, r :: rs => (v.call io s r).bind fun s => (v.calls io s rs).map (s :: ·)

/-- Boot, and then a list of system calls. -/
def run (v : Variables) (io : Ports) (cfg : BootConfig) (rs : List Registers) :
    Option (List Kernel) :=
  (kmain cfg).bind fun x => v.calls io (v.flush x.kernel) rs

end Variables

/-- A boot with `pages` usable pages. The init program is a system call and a jump back to it, and
the kernel image has another file behind it. -/
def bareConfig (pages : ℕ) (file : Mem) : BootConfig where
  mem := store file 0x10F000 4 0xFCEB80CD
  e820 := [⟨0x110000, pages * 4096, 1⟩]
  kernelEnd := 0x110000
  initStart := 0x10F000
  initSize := 4

/-- An ELF file of 64 bytes at 0x10F040 whose program header lies in its ELF header. The end of its
segment wraps around to one below its start, so that no page is mapped for it, and four bytes with
`value` are copied to `target`. -/
def wrappedElf (target value : ℕ) : Mem :=
  [(0, 4, elfMagic), (8, 4, ptLoad), (12, 4, 7), (16, 8, 60), (24, 8, target), (32, 8, 8),
    (40, 8, 4), (48, 8, 2 ^ 64 - 4096), (56, 2, 1), (60, 4, value)].foldl
    (fun m (f : ℕ × ℕ × ℕ) => store m (0x10F040 + f.1) f.2.1 f.2.2) fun _ => 0

/-- A file whose segment is copied to `tasks[0].pid` gives the first task the pid of the new one. -/
theorem pid_overwritten :
    ((⟨0x10E008, 0x10E100⟩ : Variables).run quietPorts (bareConfig 21 (wrappedElf 0x10E100 8))
      [.call 26 0x10F040 64 0 0]).map
        (List.map fun s => (List.range s.numTasks).map fun i => (s.tasks i).pid) =
      some [[8, 8]] := by decide +kernel

end Mukrn
