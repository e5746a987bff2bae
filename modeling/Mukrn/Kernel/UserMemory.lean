import Mukrn.Kernel.Task

/-! Memory-mapping calls of `task.c`. Each switches to the caller's root and back. -/
namespace Mukrn

/-- `virt & ~0xFFF`. -/
def rangeStart (virt : ℕ) : ℕ := virt / 4096 * 4096

/-- `(virt + size + 4095) & ~0xFFF`, wrapping at 64 bits. -/
def rangeEnd (virt size : ℕ) : ℕ := (virt + size + 4095) % 2 ^ 64 / 4096 * 4096

/-- Back a list of pages by fresh frames; `false` at the first allocation that fails. -/
def mapFresh (flags : ℕ) : Machine → List ℕ → Bool × Machine
  | h, [] => (true, h)
  | h, v :: vs =>
    let (page, h) := pmmAllocPage h
    if page = 0 then (false, h) else mapFresh flags (mapPage h v page flags) vs

def mapPagesAt (h : Machine) (pml4 virt size flags : ℕ) : ℤ × Machine :=
  let old := h.pagingRoot
  let (ok, h) := mapFresh flags (pagingSwitch h pml4)
    (pageCursor (rangeStart virt) (rangeEnd virt size))
  (if ok then 0 else -1, pagingSwitch h old)

/-- Bit 1 of the request asks for a writable mapping, bit 2 changes nothing. -/
def mmapFlags (flags : ℕ) : ℕ :=
  pagePresent ||| pageUser ||| (if flags / 2 % 2 = 1 then pageWritable else 0)

def sysMmap (s : Kernel) (virt size flags : ℕ) : ℤ × Kernel :=
  match s.currentTask with
  | none => (-1, s)
  | some c =>
    let (r, h) := mapPagesAt s.machine (s.tasks c).pml4Phys virt size (mmapFlags flags)
    (r, { s with machine := h })

/-- Run a page loop under the root `pml4` and switch back. -/
def underRoot (h : Machine) (pml4 : ℕ) (f : Machine → Machine) : Machine :=
  pagingSwitch (f (pagingSwitch h pml4)) h.pagingRoot

def sysMunmap (s : Kernel) (virt size : ℕ) : ℤ × Kernel :=
  match s.currentTask with
  | none => (-1, s)
  | some c =>
    let pages := pageCursor (rangeStart virt) (rangeEnd virt size)
    (0, { s with machine := underRoot s.machine (s.tasks c).pml4Phys (pages.foldl unmapPage ·) })

def mprotectFlags (flags : ℕ) : ℕ :=
  pagePresent ||| pageUser ||| (if flags % 2 = 1 then pageWritable else 0)

def sysMprotect (s : Kernel) (virt size flags : ℕ) : ℤ × Kernel :=
  match s.currentTask with
  | none => (-1, s)
  | some c =>
    let pages := pageCursor (rangeStart virt) (rangeEnd virt size)
    let change (h : Machine) (v : ℕ) := mapPageFlags h v (mprotectFlags flags)
    (0, { s with machine := underRoot s.machine (s.tasks c).pml4Phys (pages.foldl change ·) })

def heapStart : ℕ := 0x600000

/-- One break for the whole kernel. The growth loop starts at the raw old break. -/
def sysBrk (s : Kernel) (addr : ℕ) : ℤ × Kernel :=
  match s.currentTask with
  | none => (-1, s)
  | some c =>
    if addr = 0 then (toInt s.heapBrk, s)
    else
      let old := s.machine.pagingRoot
      let h := pagingSwitch s.machine (s.tasks c).pml4Phys
      let (ok, h) := mapFresh (pagePresent ||| pageWritable ||| pageUser) h
        (pageCursor s.heapBrk addr)
      let s' := { s with machine := pagingSwitch h old }
      if ok then (toInt s.heapBrk, { s' with heapBrk := addr }) else (-1, s')

/-- Bit 1 asks for a writable mapping, bit 2 for cache-disable. -/
def mmapPhysFlags (flags : ℕ) : ℕ :=
  pagePresent ||| pageUser ||| (if flags / 2 % 2 = 1 then pageWritable else 0) |||
    (if flags / 4 % 2 = 1 then 0x10 else 0)

/-- The virtual and the physical cursor advance together; the latter wraps at 64 bits. -/
def sysMmapPhys (s : Kernel) (virt phys size flags : ℕ) : ℤ × Kernel :=
  match s.currentTask with
  | none => (-1, s)
  | some c =>
    let vstart := rangeStart virt
    let pages := pageCursor vstart (rangeEnd virt size)
    let add (h : Machine) (v : ℕ) :=
      mapPage h v ((rangeStart phys + (v - vstart)) % 2 ^ 64) (mmapPhysFlags flags)
    (0, { s with machine := underRoot s.machine (s.tasks c).pml4Phys (pages.foldl add ·) })

end Mukrn
