import Mukrn.Kernel.UserMemory

/-! Process creation of `task.c`: the flat path, the ELF path and `sys_spawn_at`. The staged file is
read at its physical address, as long as both roots map the staging pages to themselves. -/
namespace Mukrn
open ByteMemory

def elfMagic : ℕ := 0x464C457F
def ptLoad : ℕ := 1

def elfEntry (m : Mem) (buf : ℕ) : ℕ := load64 m (buf + 24)
def elfPhoff (m : Mem) (buf : ℕ) : ℕ := load64 m (buf + 32)
def elfPhentsize (m : Mem) (buf : ℕ) : ℕ := load m (buf + 54) 2
def elfPhnum (m : Mem) (buf : ℕ) : ℕ := load m (buf + 56) 2

/-- `buf + hdr->phoff + i * hdr->phentsize`. The product is a C `int`, the sum wraps. -/
def phdrAddr (m : Mem) (buf i : ℕ) : ℕ :=
  (((buf + elfPhoff m buf : ℕ) + toInt (i * elfPhentsize m buf)) % 2 ^ 64).toNat

def phType (m : Mem) (ph : ℕ) : ℕ := load m ph 4
def phFlags (m : Mem) (ph : ℕ) : ℕ := load m (ph + 4) 4
def phOffset (m : Mem) (ph : ℕ) : ℕ := load64 m (ph + 8)
def phVaddr (m : Mem) (ph : ℕ) : ℕ := load64 m (ph + 16)
def phFilesz (m : Mem) (ph : ℕ) : ℕ := load64 m (ph + 32)
def phMemsz (m : Mem) (ph : ℕ) : ℕ := load64 m (ph + 40)

/-- Allocate `n` staging pages; on failure the ones already taken are freed. -/
def stagePages : ℕ → Machine → List ℕ → Option (List ℕ) × Machine
  | 0, h, pages => (some pages, h)
  | n + 1, h, pages =>
    let (page, h) := pmmAllocPage h
    if page = 0 then (none, pmmFreePages h pages) else stagePages n h (pages ++ [page])

/-- `buf[i] = binary[i]` for the last `n` values of `i`; `buf` is one address. -/
def stageCopy (binary buf : ℕ) : ℕ → ℕ → Machine → Option Machine
  | 0, _, h => some h
  | n + 1, i, h => (readUser h binary i).bind fun b =>
      stageCopy binary buf n (i + 1) { h with mem := Function.update h.mem (buf + i) b }

/-- Page-aligned end of the highest `PT_LOAD` segment. -/
def maxVaddr (m : Mem) (buf : ℕ) : ℕ :=
  let top := (List.range (elfPhnum m buf)).foldl (fun top i =>
    let ph := phdrAddr m buf i
    let finish := (phVaddr m ph + phMemsz m ph) % 2 ^ 64
    if phType m ph ≠ ptLoad then top else if top < finish then finish else top) 0
  (top + 4095) % 2 ^ 64 / 4096 * 4096

/-- The page flags of a segment: writable when bit 1 of its `flags` is set. -/
def segmentFlags (phflags : ℕ) : ℕ :=
  pagePresent ||| pageUser ||| (if phflags / 2 % 2 = 1 then pageWritable else 0)

/-- `((u8*)ph->vaddr)[j] = src[j]` from index `j` on; the header is read again each turn. -/
def copySegment (ph src : ℕ) : ℕ → ℕ → Machine → Option Machine
  | 0, _, h => some h
  | fuel + 1, j, h =>
    if j < phFilesz h.mem ph then
      (writeUser h (phVaddr h.mem ph) j (h.mem ((src + j) % 2 ^ 64))).bind
        (copySegment ph src fuel (j + 1))
    else some h

/-- Back the pages of a segment, each with the flags that its header has by then. -/
def mapSegment (ph : ℕ) : Machine → List ℕ → Bool × Machine
  | h, [] => (true, h)
  | h, v :: vs =>
    let (page, h) := pmmAllocPage h
    if page = 0 then (false, h)
    else mapSegment ph (mapPage h v page (segmentFlags (phFlags h.mem ph))) vs

/-- The segment loop from header `i` on. `false` when a segment page cannot be allocated. -/
def loadSegments (buf : ℕ) : ℕ → ℕ → Machine → Option (Bool × Machine)
  | 0, _, h => some (true, h)
  | fuel + 1, i, h =>
    if i < elfPhnum h.mem buf then
      let ph := phdrAddr h.mem buf i
      if phType h.mem ph ≠ ptLoad then loadSegments buf fuel (i + 1) h
      else
        let vaddr := phVaddr h.mem ph
        let (ok, h) := mapSegment ph h
          (pageCursor (rangeStart vaddr) (rangeEnd vaddr (phMemsz h.mem ph)))
        let src := buf + phOffset h.mem ph
        if ok then (copySegment ph src (2 ^ 64) 0 h).bind (loadSegments buf fuel (i + 1))
        else some (false, h)
    else some (true, h)

/-- The four stack pages below `top`, highest first. -/
def stackPages (top : ℕ) : List ℕ :=
  (List.range 4).map fun i => (top + 2 ^ 64 - (i + 1) * 4096) % 2 ^ 64

/-- The last slot with this pid, when none with it is live. -/
def findReuse (s : Kernel) (wantPid : ℕ) : Option ℕ :=
  if 0 < wantPid then
    (List.range s.numTasks).reverse.find? fun i => (s.tasks i).pid == wantPid
  else none

/-- Publish a new task and return its pid as a C `int`. -/
def addTask (s : Kernel) (h : Machine) (reuse : Option ℕ) (wantPid kstack pml4 loadAddr
    codePages : ℕ) : ℤ × Kernel :=
  let pid := if 0 < wantPid then wantPid else s.nextPid
  let i := reuse.getD s.numTasks
  (toInt pid,
    { s.setTask i (newTask (s.tasks i) kstack pid pml4 loadAddr codePages) with
      machine := h
      numTasks := if reuse.isSome then s.numTasks else s.numTasks + 1
      nextPid := if 0 < wantPid then s.nextPid else (s.nextPid + 1) % 2 ^ 32 })

/-- Segments and stack of a new address space, under its own root. -/
def loadImage (buf top : ℕ) (h : Machine) : Option (Bool × Machine) :=
  (loadSegments buf 65536 0 h).bind fun (ok, h) =>
    if ok then some (mapFresh (pagePresent ||| pageWritable ||| pageUser) h (stackPages top))
    else some (false, h)

/-- `create_elf` after the binary has been copied to `buf`. The entry point is read after
the staging pages have been freed. -/
def createStaged (s : Kernel) (h : Machine) (buf : ℕ) (bufPages : List ℕ) (wantPid : ℕ) :
    Option (ℤ × Kernel) :=
  let fail (h : Machine) := some (-1, { s with machine := pmmFreePages h bufPages })
  if load h.mem buf 4 ≠ elfMagic then fail h
  else
    let top := maxVaddr h.mem buf
    if maxTasks ≤ s.numTasks then fail h
    else
      let (kstack, h) := pmmAllocPage h
      if kstack = 0 then fail h
      else if 0 < wantPid ∧ (s.findLive wantPid).isSome then fail (pmmFreePage h kstack)
      else
        let (pml4, h) := pagingCloneKernel h
        if pml4 = 0 then fail (pmmFreePage h kstack)
        else
          let oldRoot := h.pagingRoot
          let userStackTop := (top + 0x20000) % 2 ^ 64
          (loadImage buf userStackTop (pagingSwitch h pml4)).map fun (ok, h) =>
            let h := pagingSwitch h oldRoot
            if ok then
              let h := pmmFreePages h bufPages
              let frame := Registers.initial (elfEntry h.mem buf) userStackTop 0
              let h := { h with mem := storeFrame h.mem kstack frame }
              addTask s h (findReuse s wantPid) wantPid kstack pml4 0x400000
                ((top + 2 ^ 64 - 0x400000 + 4095) % 2 ^ 64 / 4096)
            else (-1, { s with machine := h })

def createElf (s : Kernel) (binary size wantPid : ℕ) : Option (ℤ × Kernel) :=
  if size < 64 ∨ 65536 < size then some (-1, s)
  else
    match stagePages ((size + 4095) / 4096) s.machine [] with
    | (none, h) => some (-1, { s with machine := h })
    | (some bufPages, h) =>
      let buf := bufPages.headD 0
      (stageCopy binary buf size 0 h).bind fun h => createStaged s h buf bufPages wantPid

/-- `((u8*)load_addr)[i] = src[i]` for the last `n` values of `i`. -/
def copyFlat (binary loadAddr : ℕ) : ℕ → ℕ → Machine → Option Machine
  | 0, _, h => some h
  | n + 1, i, h => (readUser h binary i).bind fun b =>
      (writeUser h loadAddr i b).bind (copyFlat binary loadAddr n (i + 1))

/-- The flat path. Its failure exits keep what was allocated, and the ones in the mapping
loops leave the new root active. -/
def createFlat (s : Kernel) (binary size loadAddr wantPid : ℕ) : Option (ℤ × Kernel) :=
  let codePages := (size + 4095) % 2 ^ 64 / 4096
  let fail (h : Machine) := some (-1, { s with machine := h })
  if maxTasks ≤ s.numTasks then some (-1, s)
  else if 16 < codePages then some (-1, s)
  else
    let (kstack, h) := pmmAllocPage s.machine
    if kstack = 0 then fail h
    else if 0 < wantPid ∧ (s.findLive wantPid).isSome then fail h
    else
      let (pml4, h) := pagingCloneKernel h
      if pml4 = 0 then fail h
      else
        let oldRoot := h.pagingRoot
        let top := (loadAddr + 0x100000) % 2 ^ 64
        let codeList := (List.range codePages).map fun i => (loadAddr + i * 4096) % 2 ^ 64
        let (ok, h) := mapFresh (pagePresent ||| pageWritable ||| pageUser)
          (pagingSwitch h pml4) (codeList ++ stackPages top)
        if ok then
          (copyFlat binary loadAddr size 0 h).map fun h =>
            let h := pagingSwitch h oldRoot
            let h := { h with mem := storeFrame h.mem kstack (.initial loadAddr top 0) }
            addTask s h none wantPid kstack pml4 loadAddr codePages
        else fail h

def taskCreate (s : Kernel) (binary size loadAddr wantPid : ℕ) : Option (ℤ × Kernel) :=
  if 4 ≤ size then
    (readUser32 s.machine binary).bind fun magic =>
      if magic = elfMagic then createElf s binary size wantPid
      else createFlat s binary size loadAddr wantPid
  else createFlat s binary size loadAddr wantPid

def sysSpawnAt (s : Kernel) (addr size : ℕ) : Option (ℤ × Kernel) :=
  if addr = 0 ∨ size = 0 then some (-1, s)
  else if 4 ≤ size then
    (readUser32 s.machine addr).bind fun magic =>
      if magic = elfMagic then createElf s addr size 0 else some (-1, s)
  else some (-1, s)

end Mukrn
