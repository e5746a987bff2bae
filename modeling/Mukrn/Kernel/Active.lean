import Mukrn.Kernel.Elf

/-! The kernel's own accesses under the active page table. `paging.c`, `pmm.c` and `create_elf` use
the physical addresses of tables, free pages and staging pages as pointers, and a pointer leads
where the active page table says. These are the functions of `Pmm`, `Paging`, `UserMemory` and `Elf`
with each such access translated; `none` is a page fault. -/
namespace Mukrn.Active
open ByteMemory PageTable

def entry (h : Machine) (table i : ℕ) : Option ℕ :=
  (translate h (table + 8 * i)).map (load64 h.mem)

def setEntry (h : Machine) (table i v : ℕ) : Option Machine :=
  (translate h (table + 8 * i)).map fun a => { h with mem := store64 h.mem a v }

/-- The page is translated once for the link and for all of its words. -/
def pmmAllocPage (h : Machine) : Option (ℕ × Machine) :=
  if h.freeStack = 0 then some (0, h)
  else
    (translate h h.freeStack).map fun a =>
      (h.freeStack,
        { h with mem := fill h.mem a 4096 fun _ => 0, freeStack := load64 h.mem a })

/-- The inner `none` is the lack of a page. -/
def ensureTable (h : Machine) (table i bits : ℕ) : Option (Option (Machine × ℕ)) :=
  (entry h table i).bind fun e =>
    if present e then some (some (h, e))
    else
      (pmmAllocPage h).bind fun (page, h) =>
        if page = 0 then some none
        else
          (setEntry h table i (page ||| bits)).bind fun h =>
            (entry h table i).map fun e => some (h, e)

def splitHuge (h : Machine) (pdt i : ℕ) : Option (Option (Machine × ℕ)) :=
  (entry h pdt i).bind fun pde =>
    (pmmAllocPage h).bind fun (page, h) =>
      if page = 0 then some none
      else
        (translate h page).bind fun a =>
          let base := pde / 2 ^ 21 * 2 ^ 21
          let h := { h with
            mem := storeWords h.mem a 512 fun k => (base + k * 0x1000) ||| pde % 512 }
          (setEntry h pdt i (page ||| 7)).bind fun h =>
            (entry h pdt i).map fun e => some (h, e)

def ensurePt (h : Machine) (pdt i : ℕ) : Option (Option (Machine × ℕ)) :=
  (entry h pdt i).bind fun pde =>
    if present pde && huge pde then splitHuge h pdt i else ensureTable h pdt i 7

def mapPage (h : Machine) (virt phys flags : ℕ) : Option Machine :=
  (ensureTable h h.pagingRoot (pml4Index virt) 3).bind fun
  | none => some h
  | some (h, pml4e) =>
    (ensureTable h (frameOf pml4e) (pdptIndex virt) 3).bind fun
    | none => some h
    | some (h, pdpte) =>
      let pdt := frameOf pdpte
      if virt % 2 ^ 21 = 0 ∧ phys % 2 ^ 21 = 0 then
        setEntry h pdt (pdtIndex virt) (phys ||| flags ||| pagePs)
      else
        (ensurePt h pdt (pdtIndex virt)).bind fun
        | none => some h
        | some (h, pde) => setEntry h (frameOf pde) (ptIndex virt) (phys ||| flags)

def unmapPage (h : Machine) (virt : ℕ) : Option Machine :=
  (entry h h.pagingRoot (pml4Index virt)).bind fun pml4e =>
    if !present pml4e then some h
    else
      let pdpt := frameOf pml4e
      (entry h pdpt (pdptIndex virt)).bind fun pdpte =>
        if !present pdpte then some h
        else if huge pdpte then setEntry h pdpt (pdptIndex virt) (clearPresent pdpte)
        else
          let pdt := frameOf pdpte
          (entry h pdt (pdtIndex virt)).bind fun pde =>
            if huge pde then setEntry h pdt (pdtIndex virt) (clearPresent pde)
            else
              let pt := frameOf pde
              (entry h pt (ptIndex virt)).bind fun pte =>
                setEntry h pt (ptIndex virt) (clearPresent pte)

def mapFresh (flags : ℕ) : Machine → List ℕ → Option (Bool × Machine)
  | h, [] => some (true, h)
  | h, v :: vs =>
    (pmmAllocPage h).bind fun (page, h) =>
      if page = 0 then some (false, h)
      else (mapPage h v page flags).bind fun h => mapFresh flags h vs

/-- Run a page loop under the root `pml4` and switch back. -/
def underRoot (h : Machine) (pml4 : ℕ) (f : Machine → Option Machine) : Option Machine :=
  (f (pagingSwitch h pml4)).map (pagingSwitch · h.pagingRoot)

def sysMmap (s : Kernel) (virt size flags : ℕ) : Option (ℤ × Kernel) :=
  match s.currentTask with
  | none => some (-1, s)
  | some c =>
    (mapFresh (mmapFlags flags) (pagingSwitch s.machine (s.tasks c).pml4Phys)
      (pageCursor (rangeStart virt) (rangeEnd virt size))).map fun (ok, h) =>
        (if ok then 0 else -1, { s with machine := pagingSwitch h s.machine.pagingRoot })

def sysMunmap (s : Kernel) (virt size : ℕ) : Option (ℤ × Kernel) :=
  match s.currentTask with
  | none => some (-1, s)
  | some c =>
    let pages := pageCursor (rangeStart virt) (rangeEnd virt size)
    (underRoot s.machine (s.tasks c).pml4Phys (pages.foldlM unmapPage ·)).map fun h =>
      (0, { s with machine := h })

def sysBrk (s : Kernel) (addr : ℕ) : Option (ℤ × Kernel) :=
  match s.currentTask with
  | none => some (-1, s)
  | some c =>
    if addr = 0 then some (toInt s.heapBrk, s)
    else
      (mapFresh (pagePresent ||| pageWritable ||| pageUser)
        (pagingSwitch s.machine (s.tasks c).pml4Phys) (pageCursor s.heapBrk addr)).map
          fun (ok, h) =>
            let s' := { s with machine := pagingSwitch h s.machine.pagingRoot }
            if ok then (toInt s.heapBrk, { s' with heapBrk := addr }) else (-1, s')

def sysMmapPhys (s : Kernel) (virt phys size flags : ℕ) : Option (ℤ × Kernel) :=
  match s.currentTask with
  | none => some (-1, s)
  | some c =>
    let vstart := rangeStart virt
    let pages := pageCursor vstart (rangeEnd virt size)
    let add (h : Machine) (v : ℕ) :=
      mapPage h v ((rangeStart phys + (v - vstart)) % 2 ^ 64) (mmapPhysFlags flags)
    (underRoot s.machine (s.tasks c).pml4Phys (pages.foldlM add ·)).map fun h =>
      (0, { s with machine := h })

/-- Both the binary and the staging buffer are reached through the active page table. -/
def stageCopy (binary buf : ℕ) : ℕ → ℕ → Machine → Option Machine
  | 0, _, h => some h
  | n + 1, i, h =>
    (readUser h binary i).bind fun b =>
      (writeUser h buf i b).bind (stageCopy binary buf n (i + 1))

end Mukrn.Active
