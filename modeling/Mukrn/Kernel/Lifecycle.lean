import Mukrn.Kernel.Task

/-! Termination, waiting, threads and futexes of `task.c`. -/
namespace Mukrn
open ByteMemory PageTable

/-- The teardown's own page walk. It stops at the third level, so what it returns for a
mapped page is taken from the page-directory entry. -/
def readPte (m : Mem) (pml4 virt : ℕ) : ℕ :=
  let pml4e := entry m pml4 (pml4Index virt)
  if !present pml4e then 0
  else
    let pde := entry m (frameOf pml4e) (pdptIndex virt)
    if !present pde then 0
    else if huge pde then pde / 2 ^ 21 * 2 ^ 21 + virt % 2 ^ 21
    else
      let pte := entry m (frameOf pde) (pdtIndex virt)
      if !present pte then 0 else frameOf pte + virt % 4096

/-- One turn of the loop of `free_user_range`. -/
def freeUserPage (pml4 : ℕ) (h : Machine) (v : ℕ) : Machine :=
  let phys := readPte h.mem pml4 v
  unmapPage (if phys ≠ 0 then pmmFreePage h (frameOf phys) else h) v

def freeUserRange (h : Machine) (pml4 start finish : ℕ) : Machine :=
  let old := h.pagingRoot
  pagingSwitch ((pageCursor start finish).foldl (freeUserPage pml4) (pagingSwitch h pml4)) old

/-- First and last address of the code range a terminating task gives back. -/
def Task.codeRange (t : Task) : ℕ × ℕ := (t.loadAddr, (t.loadAddr + t.codePages * 4096) % 2 ^ 64)

/-- First and last address of the stack range a terminating task gives back. -/
def Task.stackRange (t : Task) : ℕ × ℕ :=
  let stackTop := (t.loadAddr + 0x100000) % 2 ^ 64
  ((stackTop + 2 ^ 64 - 4 * 4096) % 2 ^ 64, stackTop)

/-- Give back the code and stack ranges of a task that owns its address space. The same
lines stand in `sys_exit` and in `sys_kill`. -/
def freeUserMemory (h : Machine) (t : Task) : Machine :=
  if t.pml4Phys ≠ 0 ∧ t.codePages ≠ 0 then
    let h := freeUserRange h t.pml4Phys t.codeRange.1 t.codeRange.2
    freeUserRange h t.pml4Phys t.stackRange.1 t.stackRange.2
  else h

/-- The waiter is made ready without looking at its state. -/
def wakeWaiter (s : Kernel) (t : Task) : Kernel :=
  match t.waitIdx with
  | none => s
  | some w => s.setState w .ready

/-- `if (stack_phys) pmm_free_page(stack_phys)`. -/
def freeStackPage (h : Machine) (t : Task) : Machine :=
  if t.stackPhys ≠ 0 then pmmFreePage h t.stackPhys else h

def sysExit (s : Kernel) : Kernel :=
  match s.currentTask with
  | none => s
  | some c =>
    let t := s.tasks c
    let s := wakeWaiter s t
    let s := { s with machine := freeStackPage s.machine t }.setTask c
      { s.tasks c with stackPhys := 0 }
    let s := { s with machine := freeUserMemory s.machine t }
    s.setState c .exited

def sysWait (s : Kernel) (pid : ℕ) : ℤ × Kernel :=
  match s.findPid pid with
  | none => (-1, s)
  | some i =>
    if (s.tasks i).state = .exited then (0, s)
    else (0, (s.setTask i { s.tasks i with waitIdx := s.currentTask }).setCurrentState .blocked)

def sysWaitAny (s : Kernel) : ℤ × Kernel :=
  match (List.range s.numTasks).find? fun i => !s.live i && some i != s.currentTask with
  | some i => (toInt (s.tasks i).pid, s)
  | none =>
    let tasks := fun i =>
      if i < s.numTasks ∧ s.live i ∧ some i ≠ s.currentTask then
        { s.tasks i with waitIdx := s.currentTask }
      else s.tasks i
    (0, { s with tasks := tasks }.setCurrentState .blocked)

def sysGetstate (s : Kernel) (pid : ℕ) : ℤ :=
  match s.findPid pid with
  | none => -1
  | some i => (s.tasks i).state.code

/-- Neither the waiter is woken nor `stack_phys` cleared. -/
def sysKill (s : Kernel) (pid : ℕ) : ℤ × Kernel :=
  match s.findLive pid with
  | none => (-1, s)
  | some i =>
    let t := s.tasks i
    let s := s.setState i .exited
    (0, { s with machine := freeUserMemory (freeStackPage s.machine t) t })

/-- `flags` is ignored. The thread shares its parent's root and owns no code pages. -/
def sysClone (s : Kernel) (_flags userStack entry arg : ℕ) : ℤ × Kernel :=
  match s.currentTask with
  | none => (-1, s)
  | some c =>
    if maxTasks ≤ s.numTasks then (-1, s)
    else
      let parent := s.tasks c
      let (kstack, h) := pmmAllocPage s.machine
      if kstack = 0 then (-1, { s with machine := h })
      else
        let h := { h with mem := storeFrame h.mem kstack (.initial entry userStack arg) }
        let t := newTask (s.tasks s.numTasks) kstack s.nextPid parent.pml4Phys parent.loadAddr 0
        (toInt s.nextPid,
          { s.setTask s.numTasks t with
            machine := h
            numTasks := s.numTasks + 1
            nextPid := (s.nextPid + 1) % 2 ^ 32 })

def maxFutexWaiters : ℕ := 128

/-- The scan of `FUTEX_WAKE` at index `i` with `fuel = num_futex_waiters - i`. A matching
entry is replaced by the last one and the same index is looked at again. -/
def futexWakeLoop (uaddr : ℕ) (val : ℤ) : ℕ → ℕ → ℤ → Kernel → ℤ × Kernel
  | 0, _, woken, s => (woken, s)
  | fuel + 1, i, woken, s =>
    if woken < val then
      match s.futexWaiters[i]? with
      | none => (woken, s)
      | some w =>
        if w.uaddr = uaddr then
          let blocked := (s.tasks w.taskIdx).state = .blocked
          let s' := if blocked then s.setState w.taskIdx .ready else s
          let last := s.futexWaiters.getD (s.futexWaiters.length - 1) w
          let s' := { s' with futexWaiters := (s.futexWaiters.set i last).dropLast }
          futexWakeLoop uaddr val fuel i (if blocked then woken + 1 else woken) s'
        else futexWakeLoop uaddr val fuel (i + 1) woken s
    else (woken, s)

/-- `op` is a C `int`, `val` an unsigned 32-bit value that the wake loop compares as `int`. -/
def sysFutex (s : Kernel) (uaddr : ℕ) (op : ℤ) (val : ℕ) : Option (ℤ × Kernel) :=
  match s.currentTask with
  | none => some (-1, s)
  | some c =>
    if op = 0 then
      (readUser32 s.machine uaddr).map fun word =>
        if word ≠ val then (-1, s)
        else if maxFutexWaiters ≤ s.futexWaiters.length then (-1, s)
        else (0, { s with futexWaiters := s.futexWaiters ++ [FutexWaiter.mk uaddr c] }.setState c
          .blocked)
    else if op = 1 then
      some (futexWakeLoop uaddr (toInt val) s.futexWaiters.length 0 0 s)
    else some (-1, s)

end Mukrn
