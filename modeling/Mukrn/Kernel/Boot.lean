import Mukrn.Kernel.Isr

/-! From the boot loader's memory to the first user instruction: `kmain`. -/
namespace Mukrn
open ByteMemory

/-- What the boot loader hands over: memory with the kernel image and the init binary in
it, the firmware's memory map, and the linker's symbols. -/
structure BootConfig where
  mem : Mem
  e820 : List E820Entry
  kernelEnd : ℕ
  initStart : ℕ
  initSize : ℕ

/-- A zero-initialised slot of `tasks`; its `wait_idx` is `0`, not `-1`. -/
def zeroTask : Task where
  rsp := 0
  pid := 0
  state := .exited
  stackPhys := 0
  pml4Phys := 0
  loadAddr := 0
  codePages := 0
  waitIdx := some 0
  ipcQueue := fun _ => ⟨0, 0, fun _ => 0, 0⟩
  ipcHead := 0
  ipcTail := 0
  ipcCount := 0

/-- The kernel's variables after `idt_init` and `task_init`. -/
def initialKernel (h : Machine) : Kernel :=
  taskInit
    { machine := h
      tasks := fun _ => zeroTask
      currentTask := none
      numTasks := 0
      nextPid := 8
      heapBrk := heapStart
      futexWaiters := []
      irqHandlers := fun _ => none
      ticks := 0 }

/-- The page of the interrupt stack; the TSS and GDT words it writes are never read back. -/
def gdtSetupTss (h : Machine) : Machine := (pmmAllocPage h).2

/-- Memory, allocator and root as `kmain` finds them when it creates the first task. -/
def bootMachine (cfg : BootConfig) : Machine :=
  gdtSetupTss (pmmInit cfg.kernelEnd cfg.e820 ⟨setupPaging cfg.mem, 0, kernelPml4Template⟩)

def schedulerStart (s : Kernel) : System :=
  if s.numTasks = 0 then ⟨s, .stopped⟩
  else
    let s := { s.setState 0 .running with currentTask := some 0 }
    let pml4 := (s.tasks 0).pml4Phys
    let root := if pml4 = 0 then 0x1000 else pml4
    let s := { s with machine := pagingSwitch s.machine root }
    ⟨s, .user (loadFrame s.machine.mem (s.tasks 0).rsp)⟩

/-- `none` when the kernel faults on the init binary. -/
def kmain (cfg : BootConfig) : Option System :=
  (taskCreate (initialKernel (bootMachine cfg)) cfg.initStart cfg.initSize 0x400000 1).map
    fun (_, s) => schedulerStart s

/-- Kernels that `task_create` calls lead to before the scheduler starts. -/
inductive Created : Kernel → Prop
  | init (h : Machine) : Created (initialKernel h)
  | create {s s' : Kernel} {r : ℤ} {binary size loadAddr wantPid : ℕ} (hs : Created s)
      (h : taskCreate s binary size loadAddr wantPid = some (r, s')) : Created s'

end Mukrn
