import Mukrn.Library.ByteMemory

/-! Physical page allocator of `pmm.c`. Free pages form a stack threaded through
their own first words. Pages are accessed at their physical address, which is what the code does
while the active root maps them to themselves: the condition `Direct`. -/
namespace Mukrn
open ByteMemory

/-- Physical memory with the allocator's `free_stack` and the active `paging_root`.
The task table and the other kernel variables are not part of `mem`. -/
structure Machine where
  mem : Mem
  freeStack : ℕ
  pagingRoot : ℕ

/-- One entry of the firmware's memory map; `attrs` is never read. -/
structure E820Entry where
  base : ℕ
  len : ℕ
  type : ℕ
  deriving DecidableEq, Repr

/-- Returns the page address, or `0` when the free stack is empty. -/
def pmmAllocPage (h : Machine) : ℕ × Machine :=
  if h.freeStack = 0 then (0, h)
  else
    (h.freeStack,
      { h with
        mem := fill h.mem h.freeStack 4096 fun _ => 0
        freeStack := load64 h.mem h.freeStack })

def pmmFreePage (h : Machine) (addr : ℕ) : Machine :=
  { h with mem := store64 h.mem addr h.freeStack, freeStack := addr }

/-- Free a list of pages, first to last. -/
def pmmFreePages (h : Machine) (pages : List ℕ) : Machine := pages.foldl pmmFreePage h

/-- Addresses the loop of `pmm_init` steps over. -/
def pmmReserved (kernelEnd addr : ℕ) : Bool :=
  (0x1000 ≤ addr && addr < 0x4000) || (0x7C00 ≤ addr && addr < 0x8600) ||
    (0x100000 ≤ addr && addr < kernelEnd)

/-- Page-aligned bounds of a usable entry. Sums wrap at 64 bits as in the source. -/
def pmmRange (e : E820Entry) : Option (ℕ × ℕ) :=
  let finish := (e.base + e.len) % 2 ^ 64
  let start := if e.base < 0x100000 then 0x100000 else e.base
  if e.type ≠ 1 ∨ finish ≤ start then none
  else some ((start + 4095) % 2 ^ 64 / 4096 * 4096, finish / 4096 * 4096)

/-- The values of a page cursor `for (v = start; v < finish; v += 4096)`. -/
def pageCursor (start finish : ℕ) : List ℕ :=
  (List.range ((finish - start + 4095) / 4096)).map fun i => start + 4096 * i

/-- A page is pushed by the same two assignments as in `pmm_free_page`. -/
def pmmInitEntry (kernelEnd : ℕ) (h : Machine) (e : E820Entry) : Machine :=
  match pmmRange e with
  | none => h
  | some (start, finish) =>
    pmmFreePages h ((pageCursor start finish).filter fun addr => !pmmReserved kernelEnd addr)

def pmmInit (kernelEnd : ℕ) (entries : List E820Entry) (h : Machine) : Machine :=
  entries.foldl (pmmInitEntry kernelEnd) h

end Mukrn
