import Mukrn.Kernel.Pmm
import Mukrn.Library.PageTable

/-! Page tables of `paging.c`, the tables `setup_paging` leaves at boot, and accesses through
the active tables. Tables themselves are accessed at their physical address. `Active` has the same
functions with these accesses translated; they agree while the condition `InPlace` holds. -/
namespace Mukrn
open ByteMemory PageTable

def pml4Index (virt : ℕ) : ℕ := virt / 2 ^ 39 % 512
def pdptIndex (virt : ℕ) : ℕ := virt / 2 ^ 30 % 512
def pdtIndex (virt : ℕ) : ℕ := virt / 2 ^ 21 % 512
def ptIndex (virt : ℕ) : ℕ := virt / 2 ^ 12 % 512

def setEntry (h : Machine) (table i v : ℕ) : Machine :=
  { h with mem := store64 h.mem (table + 8 * i) v }

/-- `e & ~1`. -/
def clearPresent (e : ℕ) : ℕ := e / 2 * 2

/-- `e & ~PAGE_USER`. -/
def clearUser (e : ℕ) : ℕ := e - e / 4 % 2 * 4

def pagePresent : ℕ := 1
def pageWritable : ℕ := 2
def pageUser : ℕ := 4
def pagePs : ℕ := 128

/-- The boot template: one table per level, 512 identity-mapped 2 MiB pages. -/
def kernelPml4Template : ℕ := 0x1000

def setupPaging (m : Mem) : Mem :=
  let m := fill m 0x1000 0x3000 fun _ => 0
  let m := store64 (store64 m 0x1000 0x2007) 0x2000 0x3007
  storeWords m 0x3000 512 fun i => 0x83 + 0x200000 * i

def pagingSwitch (h : Machine) (pml4Phys : ℕ) : Machine := { h with pagingRoot := pml4Phys }

/-- A private copy of the template's three tables. Returns `0` when out of memory;
the pages already taken are not given back. -/
def pagingCloneKernel (h : Machine) : ℕ × Machine :=
  let (pml4, h) := pmmAllocPage h
  let (pdpt, h) := pmmAllocPage h
  let (pdt, h) := pmmAllocPage h
  if pml4 = 0 ∨ pdpt = 0 ∨ pdt = 0 then (0, h)
  else
    let srcPml4e := entry h.mem kernelPml4Template 0
    let h := setEntry h pml4 0 (pdpt ||| srcPml4e % 4096)
    let srcPdpte := entry h.mem (frameOf srcPml4e) 0
    let h := setEntry h pdpt 0 (pdt ||| srcPdpte % 4096)
    let srcPdt := frameOf srcPdpte
    (pml4, { h with mem := storeWords h.mem pdt 512 fun i => clearUser (entry h.mem srcPdt i) })

/-- The entry `i` of `table`, allocating an empty next-level table when it is absent.
`none` when no page is left; the machine is then unchanged. -/
def ensureTable (h : Machine) (table i bits : ℕ) : Option (Machine × ℕ) :=
  if present (entry h.mem table i) then some (h, entry h.mem table i)
  else
    let (page, h) := pmmAllocPage h
    if page = 0 then none
    else
      let h := setEntry h table i (page ||| bits)
      some (h, entry h.mem table i)

/-- Replace a 2 MiB leaf by a table of 512 leaves with the same target and low bits. -/
def splitHuge (h : Machine) (pdt i : ℕ) : Option (Machine × ℕ) :=
  let pde := entry h.mem pdt i
  let (page, h) := pmmAllocPage h
  if page = 0 then none
  else
    let base := pde / 2 ^ 21 * 2 ^ 21
    let h := { h with mem := storeWords h.mem page 512 fun k => (base + k * 0x1000) ||| pde % 512 }
    let h := setEntry h pdt i (page ||| 7)
    some (h, entry h.mem pdt i)

/-- The last-level table under entry `i` of `pdt`: allocated, split off, or as it is. -/
def ensurePt (h : Machine) (pdt i : ℕ) : Option (Machine × ℕ) :=
  let pde := entry h.mem pdt i
  if present pde && huge pde then splitHuge h pdt i else ensureTable h pdt i 7

def mapPage (h : Machine) (virt phys flags : ℕ) : Machine :=
  match ensureTable h h.pagingRoot (pml4Index virt) 3 with
  | none => h
  | some (h, pml4e) =>
    match ensureTable h (frameOf pml4e) (pdptIndex virt) 3 with
    | none => h
    | some (h, pdpte) =>
      let pdt := frameOf pdpte
      if virt % 2 ^ 21 = 0 ∧ phys % 2 ^ 21 = 0 then
        setEntry h pdt (pdtIndex virt) (phys ||| flags ||| pagePs)
      else
        match ensurePt h pdt (pdtIndex virt) with
        | none => h
        | some (h, pde) => setEntry h (frameOf pde) (ptIndex virt) (phys ||| flags)

/-- `(e & ~0x1FF) | (flags & 0x1FF)`. -/
def withFlags (e flags : ℕ) : ℕ := e / 512 * 512 ||| flags % 512

def mapPageFlags (h : Machine) (virt flags : ℕ) : Machine :=
  let pml4e := entry h.mem h.pagingRoot (pml4Index virt)
  if !present pml4e then h
  else
    let pdpt := frameOf pml4e
    let pdpte := entry h.mem pdpt (pdptIndex virt)
    if !present pdpte then h
    else if huge pdpte then setEntry h pdpt (pdptIndex virt) (withFlags pdpte flags)
    else
      let pdt := frameOf pdpte
      let pde := entry h.mem pdt (pdtIndex virt)
      if !present pde then h
      else if huge pde then setEntry h pdt (pdtIndex virt) (withFlags pde flags)
      else
        let pt := frameOf pde
        let pte := entry h.mem pt (ptIndex virt)
        if !present pte then h else setEntry h pt (ptIndex virt) (withFlags pte flags)

/-- The third-level entry is followed without testing that it is present. -/
def unmapPage (h : Machine) (virt : ℕ) : Machine :=
  let pml4e := entry h.mem h.pagingRoot (pml4Index virt)
  if !present pml4e then h
  else
    let pdpt := frameOf pml4e
    let pdpte := entry h.mem pdpt (pdptIndex virt)
    if !present pdpte then h
    else if huge pdpte then setEntry h pdpt (pdptIndex virt) (clearPresent pdpte)
    else
      let pdt := frameOf pdpte
      let pde := entry h.mem pdt (pdtIndex virt)
      if huge pde then setEntry h pdt (pdtIndex virt) (clearPresent pde)
      else
        let pt := frameOf pde
        setEntry h pt (ptIndex virt) (clearPresent (entry h.mem pt (ptIndex virt)))

/-- Addresses the processor accepts; the others fault. -/
def canonical (virt : ℕ) : Bool := virt < 2 ^ 47 || (2 ^ 64 - 2 ^ 47 ≤ virt && virt < 2 ^ 64)

/-- Translation of a kernel access to a caller's pointer: write protection is off for
the supervisor, a non-canonical or unmapped address faults. -/
def translate (h : Machine) (virt : ℕ) : Option ℕ :=
  if canonical virt then walk present h.mem virt 3 h.pagingRoot else none

/-- Bits 0 to 2 of an entry: present, writable and open to user mode. -/
def userWritable (e : ℕ) : Bool := e % 8 == 7

/-- A store of the running task in user mode. -/
def userStore (h : Machine) (virt : ℕ) (b : UInt8) : Option Machine :=
  if canonical virt then
    (walk userWritable h.mem virt 3 h.pagingRoot).map fun a =>
      { h with mem := Function.update h.mem a b }
  else none

/-- Read one byte through a caller's pointer; pointer arithmetic wraps at 64 bits. -/
def readUser (h : Machine) (p i : ℕ) : Option UInt8 :=
  (translate h ((p + i) % 2 ^ 64)).map h.mem

def writeUser (h : Machine) (p i : ℕ) (b : UInt8) : Option Machine :=
  (translate h ((p + i) % 2 ^ 64)).map fun a => { h with mem := Function.update h.mem a b }

/-- Read `n` bytes from `p` on, lowest address first. -/
def readUserBytes (h : Machine) (p n : ℕ) : Option (List UInt8) :=
  (List.range n).mapM (readUser h p)

/-- The four bytes at `p` as a little-endian word. -/
def readUser32 (h : Machine) (p : ℕ) : Option ℕ :=
  (readUserBytes h p 4).map fun bytes => load (fun i => bytes.getD i 0) 0 4

/-- Store bytes from `p + i` on, one after the other. -/
def writeUserBytes (h : Machine) (p i : ℕ) : List UInt8 → Option Machine
  | [] => some h
  | b :: bs => (writeUser h p i b).bind fun h => writeUserBytes h p (i + 1) bs

end Mukrn
