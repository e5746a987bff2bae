import Mukrn.Table.Current

/-! The calls of `pmm_alloc_page` and `pmm_free_page` that a request makes, each with the machine it
finds. They follow the functions of the kernel branch by branch. Under the root that is active at a
call the translations are those before the request but for the pages mapped since, or those of a new
address space. -/
namespace Mukrn
open ByteMemory PageTable

/-- A call that touches a page: the machine it finds, the page that it returns or is given, and the
pages that the request has mapped under the active root before, with their frames. -/
structure PmmCall where
  machine : Machine
  page : ℕ
  mapped : List (ℕ × ℕ)

/-- An empty free stack is left as it is. -/
def allocCalls (mapped : List (ℕ × ℕ)) (h : Machine) : List PmmCall :=
  if h.freeStack = 0 then [] else [⟨h, h.freeStack, mapped⟩]

/-- The calls of `pmmFreePages`. -/
def freeCalls : Machine → List ℕ → List PmmCall
  | _, [] => []
  | h, f :: fs => ⟨h, f, []⟩ :: freeCalls (pmmFreePage h f) fs

/-- The calls of `pagingCloneKernel`. -/
def cloneCalls (h : Machine) : List PmmCall :=
  let h1 := (pmmAllocPage h).2
  let h2 := (pmmAllocPage h1).2
  allocCalls [] h ++ allocCalls [] h1 ++ allocCalls [] h2

section Mapping

variable (mapped : List (ℕ × ℕ)) (h : Machine)

/-- The calls of `ensureTable`. -/
def tableCalls (table i : ℕ) : List PmmCall :=
  if present (entry h.mem table i) then [] else allocCalls mapped h

/-- The calls of `ensurePt`. -/
def ptCalls (pdt i : ℕ) : List PmmCall :=
  let pde := entry h.mem pdt i
  if present pde && huge pde then allocCalls mapped h else tableCalls mapped h pdt i

/-- The calls of `mapPage`. -/
def mapCalls (virt phys : ℕ) : List PmmCall :=
  tableCalls mapped h h.pagingRoot (pml4Index virt) ++
    match ensureTable h h.pagingRoot (pml4Index virt) 3 with
    | none => []
    | some (h, pml4e) =>
      tableCalls mapped h (frameOf pml4e) (pdptIndex virt) ++
        match ensureTable h (frameOf pml4e) (pdptIndex virt) 3 with
        | none => []
        | some (h, pdpte) =>
          if virt % 2 ^ 21 = 0 ∧ phys % 2 ^ 21 = 0 then []
          else ptCalls mapped h (frameOf pdpte) (pdtIndex virt)

end Mapping

/-- The calls of `mapFresh`. -/
def freshCalls (flags : ℕ) : List (ℕ × ℕ) → Machine → List ℕ → List PmmCall
  | _, _, [] => []
  | mapped, h, v :: vs =>
    let (page, h') := pmmAllocPage h
    allocCalls mapped h ++
      if page = 0 then []
      else
        mapCalls mapped h' v page ++
          freshCalls flags (mapped ++ [(v, page)]) (mapPage h' v page flags) vs

/-- The calls of the loop of `sysMmapPhys`. -/
def mapAllCalls (phys : ℕ → ℕ) (flags : ℕ) : List (ℕ × ℕ) → Machine → List ℕ → List PmmCall
  | _, _, [] => []
  | mapped, h, v :: vs =>
    mapCalls mapped h v (phys v) ++
      mapAllCalls phys flags (mapped ++ [(v, phys v)]) (mapPage h v (phys v) flags) vs

/-- The calls of `stagePages`. -/
def stageCalls : ℕ → Machine → List ℕ → List PmmCall
  | 0, _, _ => []
  | n + 1, h, pages =>
    let (page, h') := pmmAllocPage h
    allocCalls [] h ++
      if page = 0 then freeCalls h' pages else stageCalls n h' (pages ++ [page])

/-- The calls of `loadSegments`. -/
def segmentCalls (buf : ℕ) : ℕ → ℕ → List (ℕ × ℕ) → Machine → List PmmCall
  | 0, _, _, _ => []
  | fuel + 1, i, mapped, h =>
    if i < elfPhnum h.mem buf then
      let ph := phdrAddr h.mem buf i
      if phType h.mem ph ≠ ptLoad then segmentCalls buf fuel (i + 1) mapped h
      else
        let flags := segmentFlags (phFlags h.mem ph)
        let (ok, h') := mapSegment ph h (segmentCursor h.mem ph)
        let src := buf + phOffset h'.mem ph
        freshCalls flags mapped h (segmentCursor h.mem ph) ++
          if ok then
            ((copySegment ph src (2 ^ 64) 0 h').map (segmentCalls buf fuel (i + 1)
              (mapped ++ freshMaps flags h (segmentCursor h.mem ph)))).getD []
          else []
    else []

/-- The calls of `loadImage`. -/
def imageCalls (buf top : ℕ) (h : Machine) : List PmmCall :=
  segmentCalls buf 65536 0 [] h ++
    match loadSegments buf 65536 0 h with
    | some (true, h') => freshCalls (pagePresent ||| pageWritable ||| pageUser)
        (segmentMaps buf 65536 0 h) h' (stackPages top)
    | _ => []

/-- The calls of `createStaged`. -/
def stagedCalls (s : Kernel) (h : Machine) (buf : ℕ) (bufPages : List ℕ) (wantPid : ℕ) :
    List PmmCall :=
  if load h.mem buf 4 ≠ elfMagic ∨ maxTasks ≤ s.numTasks then freeCalls h bufPages
  else
    let (kstack, h1) := pmmAllocPage h
    allocCalls [] h ++
      if kstack = 0 then freeCalls h1 bufPages
      else if 0 < wantPid ∧ (s.findLive wantPid).isSome then freeCalls h1 (kstack :: bufPages)
      else
        let (pml4, h2) := pagingCloneKernel h1
        cloneCalls h1 ++
          if pml4 = 0 then freeCalls h2 (kstack :: bufPages)
          else
            let top := (maxVaddr h.mem buf + 0x20000) % 2 ^ 64
            imageCalls buf top (pagingSwitch h2 pml4) ++
              match loadImage buf top (pagingSwitch h2 pml4) with
              | some (true, h3) => freeCalls (pagingSwitch h3 h2.pagingRoot) bufPages
              | _ => []

/-- The calls of `createElf`. -/
def elfCalls (s : Kernel) (binary size wantPid : ℕ) : List PmmCall :=
  if size < 64 ∨ 65536 < size then []
  else
    stageCalls ((size + 4095) / 4096) s.machine [] ++
      match stagePages ((size + 4095) / 4096) s.machine [] with
      | (none, _) => []
      | (some pages, h) =>
        ((stageCopy binary (pages.headD 0) size 0 h).map fun h =>
          stagedCalls s h (pages.headD 0) pages wantPid).getD []

/-- The calls of `sysSpawnAt`. -/
def spawnCalls (s : Kernel) (addr size : ℕ) : List PmmCall :=
  if addr = 0 ∨ size < 4 then []
  else if readUser32 s.machine addr = some elfMagic then elfCalls s addr size 0
  else []

/-- The calls of the loop of `freeUserRange`. -/
def userPageCalls (pml4 : ℕ) : Machine → List ℕ → List PmmCall
  | _, [] => []
  | h, v :: vs =>
    let phys := readPte h.mem pml4 v
    (if phys ≠ 0 then [⟨h, frameOf phys, []⟩] else []) ++
      userPageCalls pml4 (freeUserPage pml4 h v) vs

/-- The calls with which a task's stack page and user memory are given back. -/
def taskCalls (h : Machine) (t : Task) : List PmmCall :=
  let h1 := freeStackPage h t
  (if t.stackPhys ≠ 0 then [⟨h, t.stackPhys, []⟩] else []) ++
    if t.pml4Phys ≠ 0 ∧ t.codePages ≠ 0 then
      let h2 := freeUserRange h1 t.pml4Phys t.codeRange.1 t.codeRange.2
      userPageCalls t.pml4Phys (pagingSwitch h1 t.pml4Phys)
          (pageCursor t.codeRange.1 t.codeRange.2) ++
        userPageCalls t.pml4Phys (pagingSwitch h2 t.pml4Phys)
          (pageCursor t.stackRange.1 t.stackRange.2)
    else []

/-- The calls that a system call of slot `c` makes. -/
def syscallCalls (s : Kernel) (c : ℕ) : Syscall → List PmmCall
  | .exit => taskCalls s.machine (s.tasks c)
  | .kill pid => ((s.findLive pid).map fun i => taskCalls s.machine (s.tasks i)).getD []
  | .mmap virt size flags =>
    freshCalls (mmapFlags flags) [] (pagingSwitch s.machine (s.tasks c).pml4Phys)
      (pageCursor (rangeStart virt) (rangeEnd virt size))
  | .brk addr =>
    if addr = 0 then []
    else
      freshCalls (pagePresent ||| pageWritable ||| pageUser) []
        (pagingSwitch s.machine (s.tasks c).pml4Phys) (pageCursor s.heapBrk addr)
  | .clone .. => if maxTasks ≤ s.numTasks then [] else allocCalls [] s.machine
  | .mmapPhys virt phys size flags =>
    mapAllCalls (fun v => (rangeStart phys + (v - rangeStart virt)) % 2 ^ 64) (mmapPhysFlags flags)
      [] (pagingSwitch s.machine (s.tasks c).pml4Phys)
      (pageCursor (rangeStart virt) (rangeEnd virt size))
  | .spawnAt addr size => spawnCalls s addr size
  | _ => []

/-- The calls that a request of slot `c` makes. A user page fault ends the task. -/
def requestCalls (s : Kernel) (c : ℕ) : Request → List PmmCall
  | .fault => taskCalls s.machine (s.tasks c)
  | .call _ call => syscallCalls s c call
  | _ => []

/-- A call under the same root as `h`, where the translations are those of `h` but for the pages
mapped since. -/
def PmmCall.After (sh : Shape) (mapped : List (ℕ × ℕ)) (h : Machine) (c : PmmCall) : Prop :=
  c.machine.pagingRoot = h.pagingRoot ∧ ∃ ms, c.mapped = mapped ++ ms ∧
    WalksAgree sh (fun r va => r = h.pagingRoot ∧ TouchedBy ms va) h.mem c.machine.mem

/-- A call under the root of a copy of the template, in which pages have been mapped. -/
def PmmCall.InCopy (c : PmmCall) : Prop :=
  ∀ va, ¬ TouchedBy c.mapped va →
    walk present c.machine.mem va 3 c.machine.pagingRoot = templateWalk present va

section After

variable {sh sh' : Shape} {mapped ms : List (ℕ × ℕ)} {h h' : Machine} {c : PmmCall}

theorem PmmCall.After.here (hm : c.machine = h) (hl : c.mapped = mapped) : c.After sh mapped h := by
  refine ⟨by rw [hm], [], by rw [hl, List.append_nil], fun _ _ _ _ _ _ => ?_⟩
  rw [hm]

/-- A call found from a machine that has already mapped some pages. -/
theorem PmmCall.After.trans (hc : c.After sh' (mapped ++ ms) h')
    (hr : h'.pagingRoot = h.pagingRoot)
    (hw : WalksAgree sh (fun r va => r = h.pagingRoot ∧ TouchedBy ms va) h.mem h'.mem)
    (hsub : ∀ r, sh r = some (r, []) → sh' r = some (r, [])) : c.After sh mapped h := by
  obtain ⟨hroot, ns, hl, hw'⟩ := hc
  refine ⟨hroot.trans hr, ms ++ ns, by rw [hl, List.append_assoc], ?_⟩
  refine (hw.mono fun r va ⟨hr, p, hp, ht⟩ => ⟨hr, p, List.mem_append_left _ hp, ht⟩).trans
    (hw'.mono fun r va ⟨hr', p, hp, ht⟩ => ⟨hr'.trans hr, p, List.mem_append_right _ hp, ht⟩) hsub

/-- The same where no page has been mapped. -/
theorem PmmCall.After.same (hc : c.After sh' mapped h') (hr : h'.pagingRoot = h.pagingRoot)
    (hw : WalksAgree sh (fun _ _ => False) h.mem h'.mem)
    (hsub : ∀ r, sh r = some (r, []) → sh' r = some (r, [])) : c.After sh mapped h := by
  rw [← List.append_nil mapped] at hc
  exact hc.trans hr (hw.mono fun _ _ => False.elim) hsub

/-- A call of the loader, seen from the new address space it starts with. -/
theorem PmmCall.After.inCopy (hc : c.After sh [] h) (hn : NewSpace [] h.mem h.pagingRoot)
    (hr : sh h.pagingRoot = some (h.pagingRoot, [])) : c.InCopy := by
  obtain ⟨hroot, ms, hl, hw⟩ := hc
  intro va hva
  rw [hl, List.nil_append] at hva
  rw [hroot, hw _ access_present _ hr va fun ht => hva ht.2]
  refine hn.kept _ access_present va ?_
  rintro ⟨p, hp, -⟩
  cases hp

theorem allocCalls_after (hc : c ∈ allocCalls mapped h) : c.After sh mapped h := by
  unfold allocCalls at hc
  split at hc
  · cases hc
  · rw [List.mem_singleton.mp hc]
    exact .here rfl rfl

theorem tableCalls_after {t i : ℕ} (hc : c ∈ tableCalls mapped h t i) : c.After sh mapped h := by
  unfold tableCalls at hc
  split at hc
  · cases hc
  · exact allocCalls_after hc

theorem ptCalls_after {t i : ℕ} (hc : c ∈ ptCalls mapped h t i) : c.After sh mapped h := by
  unfold ptCalls at hc
  simp only at hc
  split at hc
  · exact allocCalls_after hc
  · exact tableCalls_after hc

theorem allocCalls_taken {fl : List ℕ} (hA : TablesApart sh fl h) (hc : c ∈ allocCalls mapped h) :
    c.page ∈ fl ∧ c.mapped = mapped := by
  unfold allocCalls at hc
  split at hc
  · cases hc
  next h0 =>
    rw [List.mem_singleton.mp hc]
    cases fl with
    | nil => exact absurd hA.chain h0
    | cons f fl => exact ⟨by rw [hA.chain.1]; exact List.mem_cons_self, rfl⟩

theorem tableCalls_taken {fl : List ℕ} {t i : ℕ} (hA : TablesApart sh fl h)
    (hc : c ∈ tableCalls mapped h t i) : c.page ∈ fl ∧ c.mapped = mapped := by
  unfold tableCalls at hc
  split at hc
  · cases hc
  · exact allocCalls_taken hA hc

theorem ptCalls_taken {fl : List ℕ} {t i : ℕ} (hA : TablesApart sh fl h)
    (hc : c ∈ ptCalls mapped h t i) : c.page ∈ fl ∧ c.mapped = mapped := by
  unfold ptCalls at hc
  simp only at hc
  split at hc
  · exact allocCalls_taken hA hc
  · exact tableCalls_taken hA hc

/-- While `map_page` builds tables, from free pages, no translation changes. -/
theorem mapCalls_after {fl : List ℕ} {virt phys : ℕ} (hA : TablesApart sh fl h)
    (hr : sh h.pagingRoot = some (h.pagingRoot, [])) (hc : c ∈ mapCalls mapped h virt phys) :
    c.After sh mapped h ∧ c.page ∈ fl ∧ c.mapped = mapped := by
  unfold mapCalls at hc
  rcases List.mem_append.mp hc with hc | hc
  · exact ⟨tableCalls_after hc, tableCalls_taken hA hc⟩
  rcases ensureTable_apart hA hr .root (by decide) (index_lt 3 virt) rfl (fun _ => .inl rfl) with
    ⟨-, -, he1⟩ | ⟨h1, e1, sh1, fl1, he1, hx1, hat1, -⟩
  · have he1 : ensureTable h h.pagingRoot (pml4Index virt) 3 = none := he1
    rw [he1] at hc
    cases hc
  have he1 : ensureTable h h.pagingRoot (pml4Index virt) 3 = some (h1, e1) := he1
  have hr1 := hx1.keeps _ _ hr
  have hst1 := hx1.apart.linked.tableAt access_present.present hr1 hat1
  rw [he1] at hc
  suffices hnext : c.After sh1 mapped h1 ∧ c.page ∈ fl1 ∧ c.mapped = mapped from
    ⟨hnext.1.same hx1.root hx1.walks fun r => hx1.keeps r _, hx1.rest hnext.2.1, hnext.2.2⟩
  rcases List.mem_append.mp hc with hc | hc
  · exact ⟨tableCalls_after hc, tableCalls_taken hx1.apart hc⟩
  rcases ensureTable_apart hx1.apart hr1 hat1 (by simp) (index_lt 2 virt) rfl
    (fun hp => .inr (hx1.apart.linked.flat _ _ _ hst1 rfl _ (index_lt 2 virt) hp)) with
      ⟨-, -, he2⟩ | ⟨h2, e2, sh2, fl2, he2, hx2, -⟩
  · have he2 : ensureTable h1 (frameOf e1) (pdptIndex virt) 3 = none := he2
    rw [he2] at hc
    cases hc
  have he2 : ensureTable h1 (frameOf e1) (pdptIndex virt) 3 = some (h2, e2) := he2
  rw [he2] at hc
  suffices hnext : c.After sh2 mapped h2 ∧ c.page ∈ fl2 ∧ c.mapped = mapped from
    ⟨hnext.1.same hx2.root hx2.walks fun r => hx2.keeps r _, hx2.rest hnext.2.1, hnext.2.2⟩
  simp only at hc
  split at hc
  · cases hc
  · exact ⟨ptCalls_after hc, ptCalls_taken hx2.apart hc⟩

end After

section Loops

variable {use : ℕ → Use} {fl pages : List ℕ} {h : Machine} {mapped : List (ℕ × ℕ)} {c : PmmCall}

/-- Allocating a page changes no translation. -/
theorem Owned.alloc_walks (ho : Owned use fl h) : ∃ use' fl', Owned use' fl' (pmmAllocPage h).2 ∧
    (pmmAllocPage h).2.pagingRoot = h.pagingRoot ∧
    WalksAgree (shape use) (fun _ _ => False) h.mem (pmmAllocPage h).2.mem ∧
    ∀ r, shape use r = some (r, []) → shape use' r = some (r, []) := by
  cases fl with
  | nil =>
    rw [ho.alloc_nil]
    exact ⟨use, [], ho, rfl, fun _ _ _ _ _ _ => rfl, fun _ hr => hr⟩
  | cons f fl =>
    rw [ho.alloc_eq]
    refine ⟨_, fl, ho.alloc (u := .data) (by simp) (by simp) (by simp), rfl, ho.take_walks _,
      fun r hr => ?_⟩
    have hne : r ≠ f := ho.ne_head (by rw [shape_eq_some.mp hr]; simp)
    rw [shape_eq_some, Function.update_of_ne hne]
    exact shape_eq_some.mp hr

theorem cloneCalls_after (ho : Owned use fl h) (hc : c ∈ cloneCalls h) :
    c.After (shape use) [] h := by
  obtain ⟨use1, fl1, ho1, hr1, hw1, hs1⟩ := ho.alloc_walks
  obtain ⟨use2, fl2, -, hr2, hw2, hs2⟩ := ho1.alloc_walks
  simp only [cloneCalls, List.mem_append] at hc
  rcases hc with (hc | hc) | hc
  · exact allocCalls_after hc
  · exact (allocCalls_after hc).same hr1 hw1 hs1
  · have hlast : c.After (shape use1) [] (pmmAllocPage h).2 :=
      (allocCalls_after hc).same hr2 hw2 hs2
    exact hlast.same hr1 hw1 hs1

theorem freshCalls_after {flags : ℕ} (ho : Owned use fl h)
    (hr : use h.pagingRoot = .table h.pagingRoot []) (hf : flags < 128) (hpf : present flags)
    {vs : List ℕ} (hc : c ∈ freshCalls flags mapped h vs) : c.After (shape use) mapped h := by
  induction vs generalizing use fl h mapped with
  | nil => cases hc
  | cons v vs ih =>
    cases fl with
    | nil =>
      simp only [freshCalls, ho.alloc_nil, if_true, List.append_nil] at hc
      exact allocCalls_after hc
    | cons f fl =>
      simp only [freshCalls, ho.alloc_eq, ho.head.2.2.1.ne', if_false, List.mem_append] at hc
      rcases hc with hc | hc | hc
      · exact allocCalls_after hc
      · obtain ⟨ho1, hr1, -⟩ := ho.take_data hr
        have hnext := (mapCalls_after ho1.apart hr1 hc).1
        refine hnext.same rfl (ho.take_walks _) fun r hr => ?_
        have hne : r ≠ f := ho.ne_head (by rw [shape_eq_some.mp hr]; simp)
        rw [shape_eq_some, Function.update_of_ne hne]
        exact shape_eq_some.mp hr
      · obtain ⟨use1, fl1, hb, -⟩ := mapOne_spec (v := v) ho hr hf hpf
        have hnext := ih hb.owned (hb.keeps_root ho hr) hc
        exact hnext.trans hb.root hb.walks fun r hr =>
          shape_eq_some.mpr (hb.took.keeps_table ho (shape_eq_some.mp hr))

theorem mapAllCalls_after {flags : ℕ} {phys : ℕ → ℕ} (ho : Owned use fl h)
    (hr : use h.pagingRoot = .table h.pagingRoot []) (hf : flags < 128) (hpf : present flags)
    {vs : List ℕ} (hphys : ∀ v ∈ vs, phys v % 4096 = 0 ∧ phys v < 2 ^ 64)
    (hc : c ∈ mapAllCalls phys flags mapped h vs) : c.After (shape use) mapped h := by
  induction vs generalizing use fl h mapped with
  | nil => cases hc
  | cons v vs ih =>
    rw [mapAllCalls] at hc
    rcases List.mem_append.mp hc with hc | hc
    · exact (mapCalls_after ho.apart (shape_eq_some.mpr hr) hc).1
    · obtain ⟨hal, hlt⟩ := hphys v (by simp)
      obtain ⟨use1, fl1, hone⟩ := mapPage_remapped (v := v) ho hr hf hpf hal hlt
      have hnext := ih hone.owned (hone.keeps_root ho hr) (fun w hw => hphys w (by simp [hw])) hc
      exact hnext.trans hone.root hone.walks fun r hr =>
        shape_eq_some.mpr (hone.took.keeps_table ho (shape_eq_some.mp hr))

/-- Between pages that are given back, only their contents change. -/
theorem freeCalls_same (hp : ∀ f ∈ pages, f % 4096 = 0) (hc : c ∈ freeCalls h pages) :
    c.machine.pagingRoot = h.pagingRoot ∧ c.mapped = [] ∧
      SameOutside pages h.mem c.machine.mem := by
  induction pages generalizing h with
  | nil => cases hc
  | cons f pages ih =>
    rw [freeCalls] at hc
    rcases List.mem_cons.mp hc with rfl | hc
    · exact ⟨rfl, rfl, fun _ _ => rfl⟩
    · obtain ⟨hr, hl, hout⟩ := ih (fun g hg => hp g (by simp [hg])) hc
      have hone : SameOutside [f] h.mem (pmmFreePage h f).mem :=
        .one (hp f (by simp)) fun a ha => fill_outside (by omega)
      exact ⟨hr, hl, hone.trans hout⟩

theorem freeCalls_after (ho : Owned use fl h) (hp : ∀ f ∈ pages, f % 4096 = 0)
    (ht : ∀ f ∈ pages, ∀ r p, use f ≠ .table r p) (hc : c ∈ freeCalls h pages) :
    c.After (shape use) [] h := by
  obtain ⟨hr, hl, hout⟩ := freeCalls_same hp hc
  exact ⟨hr, [], hl, ho.walks_sameOutside hout ht _⟩

theorem stageCalls_after (ho : Owned use fl h) (hp : ∀ f ∈ pages, use f = .data) {n : ℕ}
    (hc : c ∈ stageCalls n h pages) : c.After (shape use) [] h := by
  induction n generalizing use fl pages h with
  | zero => cases hc
  | succ n ih =>
    cases fl with
    | nil =>
      simp only [stageCalls, ho.alloc_nil, if_true, List.mem_append] at hc
      rcases hc with hc | hc
      · exact allocCalls_after hc
      exact freeCalls_after ho (fun f hf => (ho.page f (by simp [hp f hf])).1)
        (fun f hf => by simp [hp f hf]) hc
    | cons f fl =>
      simp only [stageCalls, ho.alloc_eq, ho.head.2.2.1.ne', if_false, List.mem_append] at hc
      rcases hc with hc | hc
      · exact allocCalls_after hc
      have ht : Took (· = .data) 1 use (f :: fl) _ fl := .one rfl
      have hp' (g : ℕ) (hg : g ∈ pages ++ [f]) : Function.update use f .data g = .data := by
        by_cases hg' : g = f
        · rw [hg', Function.update_self]
        · rw [Function.update_of_ne hg']
          exact hp g ((List.mem_append.mp hg).resolve_right (by simpa using hg'))
      have hnext := ih (ho.alloc (u := .data) (by simp) (by simp) (by simp)) hp' hc
      exact hnext.same rfl (ho.take_walks _) fun r hr =>
        shape_eq_some.mpr (ht.keeps_table ho (shape_eq_some.mp hr))

end Loops

section Loading

variable {m : Mem} {buf r : ℕ} {use : ℕ → Use} {fl : List ℕ} {h : Machine}
  {mapped : List (ℕ × ℕ)} {c : PmmCall}

/-- The segment loop from header `i` on. -/
theorem segmentCalls_after (hm : Loadable m buf) (hl : Loading m buf r use fl h) {fuel i : ℕ}
    (hroom : 4 * (((List.range (elfPhnum m buf)).drop i).map (segmentPages m buf)).sum ≤ fl.length)
    (hc : c ∈ segmentCalls buf fuel i mapped h) : c.After (shape use) mapped h := by
  induction fuel generalizing use fl h i mapped with
  | zero => cases hc
  | succ fuel ih =>
    rw [segmentCalls, elfPhnum_page hl.header, phdrAddr_page hl.header] at hc
    by_cases hi : i < elfPhnum m buf
    · rw [range_drop hi, List.map_cons, List.sum_cons, Nat.mul_add] at hroom
      obtain ⟨hb1, hb2⟩ := hm.headers i hi
      simp only [if_pos hi, segmentCursor, phType_page hl.header hb1 hb2,
        phFlags_page hl.header hb1 hb2, phVaddr_page hl.header hb1 hb2, phMemsz_page hl.header hb1 hb2] at hc
      by_cases hload : phType m (phdrAddr m buf i) = ptLoad
      · rw [if_neg (not_not.mpr hload)] at hc
        obtain ⟨h1, h2, use1, fl1, hmap, hcopy, hl1, hlen, hpop, -⟩ :=
          segment_loading hm hl hi hload (by omega) (2 ^ 64) 0
        rw [segmentCursor] at hmap hpop
        rw [hmap] at hc
        simp only [if_true, hcopy, Option.map_some, Option.getD_some, List.mem_append] at hc
        rcases hc with hc | hc
        · obtain ⟨hf, hpf⟩ := segmentFlags_ok (phFlags m (phdrAddr m buf i))
          exact freshCalls_after hl.owned (hl.root ▸ hl.table) hf hpf hc
        · have hnext := ih hl1 (by omega) hc
          exact hnext.trans hpop.root hpop.walks fun r hr =>
            shape_eq_some.mpr (hpop.took.keeps_table hl.owned (shape_eq_some.mp hr))
      · rw [if_pos hload] at hc
        exact ih hl (by omega) hc
    · rw [if_neg hi] at hc
      cases hc

theorem imageCalls_after (hm : Loadable m buf) (hl : Loading m buf r use fl h)
    (hroom : 4 * imagePages m buf ≤ fl.length) {top : ℕ} (hc : c ∈ imageCalls buf top h) :
    c.After (shape use) [] h := by
  unfold imageCalls at hc
  rcases List.mem_append.mp hc with hc | hc
  · exact segmentCalls_after (i := 0) hm hl hroom hc
  · obtain ⟨h1, use1, fl1, hseg, hl1, -, hpop, -⟩ :=
      loadSegments_loading (i := 0) hm hl hroom 65536
    rw [hseg] at hc
    have hnext := freshCalls_after hl1.owned (hl1.root ▸ hl1.table) (by decide) (by decide) hc
    exact hnext.trans hpop.root hpop.walks fun r hr =>
      shape_eq_some.mpr (hpop.took.keeps_table hl.owned (shape_eq_some.mp hr))

/-- The calls of `create_elf` after the binary has been staged. -/
theorem stagedCalls_sites {s : Kernel} {pages : List ℕ} {wantPid : ℕ} (ho : Owned use fl h)
    (hp : ∀ f ∈ pages, use f = .data) (hbuf : buf ∈ pages) (hm : Loadable h.mem buf)
    (hroom : 20 + 4 * imagePages h.mem buf ≤ fl.length)
    (hc : c ∈ stagedCalls s h buf pages wantPid) : c.After (shape use) [] h ∨ c.InCopy := by
  have hpage (f : ℕ) (hf : f ∈ pages) : f % 4096 = 0 := (ho.page f (by simp [hp f hf])).1
  have htable (f : ℕ) (hf : f ∈ pages) (r : ℕ) (p : List ℕ) : use f ≠ .table r p := by
    simp [hp f hf]
  by_cases hearly : load h.mem buf 4 ≠ elfMagic ∨ maxTasks ≤ s.numTasks
  · rw [stagedCalls, if_pos hearly] at hc
    exact .inl (freeCalls_after ho hpage htable hc)
  cases fl with
  | nil =>
    rw [List.length_nil] at hroom
    omega
  | cons k fl =>
  rw [List.length_cons] at hroom
  obtain ⟨-, hk0, hkpos, -⟩ := ho.head
  have ho1 := ho.alloc (u := .stack s.numTasks) (by simp) (by simp) (by simp)
  have ht1 : Took (· = .stack s.numTasks) 1 use (k :: fl) _ fl := .one rfl
  have hsub1 (r : ℕ) (hr : shape use r = some (r, [])) :
      shape (Function.update use k (.stack s.numTasks)) r = some (r, []) :=
    shape_eq_some.mpr (ht1.keeps_table ho (shape_eq_some.mp hr))
  have hp1 (f : ℕ) (hf : f ∈ k :: pages) (r : ℕ) (p : List ℕ) :
      Function.update use k (.stack s.numTasks) f ≠ .table r p := by
    rcases List.mem_cons.mp hf with rfl | hf
    · simp
    · rw [ht1.keeps ho (by simp [hp f hf])]
      exact htable f hf r p
  have hpage1 (f : ℕ) (hf : f ∈ k :: pages) : f % 4096 = 0 := by
    rcases List.mem_cons.mp hf with rfl | hf
    · exact hk0
    · exact hpage f hf
  simp only [stagedCalls, if_neg hearly, ho.alloc_eq, hkpos.ne', if_false, List.mem_append] at hc
  rcases hc with hc | hc
  · exact .inl (allocCalls_after hc)
  split at hc
  · have hnext := freeCalls_after ho1 hpage1 hp1 hc
    exact .inl (hnext.same rfl (ho.take_walks _) hsub1)
  obtain ⟨r, hcl, use2, fl2, hclone, hr0, hlen2, ho2, hr2, hd2, ht, hk2, hrfree, hw1, hn1, -⟩ :=
    loading_start ho (by omega) s.numTasks
  obtain ⟨hbuf2, hsame2⟩ := hd2 buf (hp buf hbuf)
  have hl : Loading h.mem buf r use2 fl2 (pagingSwitch hcl r) := ⟨ho2, rfl, hr2, hbuf2, hsame2⟩
  simp only [hclone, hr0, if_false, List.mem_append] at hc
  rcases hc with hc | hc | hc
  · have hnext := cloneCalls_after ho1 hc
    exact .inl (hnext.same rfl (ho.take_walks _) hsub1)
  · have hnext := imageCalls_after hm hl (by omega) hc
    exact .inr (hnext.inCopy hn1 (shape_eq_some.mpr hr2))
  · obtain ⟨h3, use3, fl3, himg, hl3, -, hpop, -⟩ := loadImage_loading hm hl (by omega)
      ((maxVaddr h.mem buf + 0x20000) % 2 ^ 64)
    rw [himg] at hc
    have hp3 (f : ℕ) (hf : f ∈ pages) : use3 f = .data := by
      have hf2 := (hd2 f (hp f hf)).1
      rw [hpop.took.keeps hl.owned (by simp [hf2]), hf2]
    have hnext := freeCalls_after (hl3.owned.switch hcl.pagingRoot) hpage
      (fun f hf => by simp [hp3 f hf]) hc
    have hroot : hcl.pagingRoot = h.pagingRoot := by
      have hsame := pagingCloneKernel_root (h.take k)
      rwa [hclone] at hsame
    have hkept (r' : ℕ) (hr' : shape use r' = some (r', [])) : use3 r' = .table r' [] :=
      hpop.took.keeps_table hl.owned (ht.keeps_table ho (shape_eq_some.mp hr'))
    refine .inl (hnext.same hroot (fun ok ha r' hr' va _ => ?_) fun r' hr' =>
      shape_eq_some.mpr (hkept r' hr'))
    have hne : r' ≠ r := by
      rintro rfl
      cases hrfree.symm.trans (shape_eq_some.mp hr')
    have h2 := ht.keeps_table ho (shape_eq_some.mp hr')
    exact (hpop.walks ok ha r' (shape_eq_some.mpr h2) va fun hn => hne hn.1).trans
      (hw1 ok ha r' hr' va id)

end Loading

section Requests

variable {use : ℕ → Use} {fl : List ℕ} {s : Kernel} {c : PmmCall}

theorem elfCalls_sites {binary size wantPid : ℕ} (ho : Owned use fl s.machine)
    (hgood : GoodImage s binary size) (hc : c ∈ elfCalls s binary size wantPid) :
    c.After (shape use) [] s.machine ∨ c.InCopy := by
  unfold elfCalls at hc
  split at hc
  · cases hc
  next hsize =>
  rcases List.mem_append.mp hc with hc | hc
  · exact .inl (stageCalls_after ho (List.forall_mem_nil _) hc)
  cases hst : stagePages ((size + 4095) / 4096) s.machine [] with
  | mk res h1 =>
  cases res with
  | none =>
    rw [hst] at hc
    cases hc
  | some pages =>
    simp only [hst] at hc
    cases hcopy : stageCopy binary (pages.headD 0) size 0 h1 with
    | none =>
      rw [hcopy] at hc
      cases hc
    | some h2 =>
      rw [hcopy, Option.map_some, Option.getD_some] at hc
      obtain ⟨use1, fl1, ho2, -, hbuf, hpages, hkeep, hsame, hload, hroom⟩ :=
        hgood.staged ho (by omega) hst hcopy
      refine (stagedCalls_sites ho2 (fun f hf => (hpages f hf).2) hbuf hload hroom hc).imp_left
        fun hnext => hnext.same ?_ (ho.walks_sameOutside hsame (fun f hf r p => ?_) _)
          fun r hr => ?_
      · have hroot := stagePages_root ((size + 4095) / 4096) s.machine []
        rw [hst] at hroot
        exact (stageCopy_root hcopy).trans hroot
      · rw [(hpages f hf).1]
        simp
      · have hu := shape_eq_some.mp hr
        exact shape_eq_some.mpr ((hkeep r (by simp [hu])).trans hu)

/-- The end of a task without user memory only gives back its stack page. -/
theorem taskCalls_thread {t : Task} (ht : t.IsThread) (h : Machine) :
    taskCalls h t = if t.stackPhys ≠ 0 then [⟨h, t.stackPhys, []⟩] else [] := by
  have hnone : ¬ (t.pml4Phys ≠ 0 ∧ t.codePages ≠ 0) := fun hn => ht.elim hn.1 hn.2
  simp only [taskCalls, if_neg hnone, List.append_nil]

theorem taskCalls_after {sh : Shape} {h : Machine} {t : Task} (ht : t.IsThread)
    (hc : c ∈ taskCalls h t) : c.After sh [] h := by
  rw [taskCalls_thread ht] at hc
  split at hc
  · rw [List.mem_singleton.mp hc]
    exact .here rfl rfl
  · cases hc

/-- Every call of a sound request is made under the caller's root, translated as before but for the
pages mapped by the request, or in the address space that the request creates. -/
theorem requestCalls_sites {d : ℕ} {q : Request} (hs : Safe use fl s) (hd : Scheduled s d)
    (hq : SoundRequest s d q) (hc : c ∈ requestCalls s d q) :
    c.After (shape use) [] s.machine ∨ c.InCopy := by
  have hswitch : pagingSwitch s.machine (s.tasks d).pml4Phys = s.machine := by
    rw [← hd.root]
    rfl
  have hr := hs.root d hd.lt
  rw [← hd.root] at hr
  cases q with
  | none | store | irq => cases hc
  | fault => exact .inl (taskCalls_after hq.1 hc)
  | call io call =>
    cases call with
    | exit => exact .inl (taskCalls_after hq.1 hc)
    | kill pid =>
      simp only [requestCalls, syscallCalls] at hc
      cases hi : s.findLive pid with
      | none =>
        rw [hi] at hc
        cases hc
      | some i =>
        rw [hi, Option.map_some, Option.getD_some] at hc
        exact .inl (taskCalls_after (hq i hi).1 hc)
    | mmap virt size flags =>
      obtain ⟨hf, hpf, -⟩ := mmapFlags_bits flags
      simp only [requestCalls, syscallCalls, hswitch] at hc
      exact .inl (freshCalls_after hs.owned hr hf hpf hc)
    | brk addr =>
      simp only [requestCalls, syscallCalls, hswitch] at hc
      split at hc
      · cases hc
      · exact .inl (freshCalls_after hs.owned hr (by decide) (by decide) hc)
    | clone flags userStack entry arg =>
      simp only [requestCalls, syscallCalls] at hc
      split at hc
      · cases hc
      · exact .inl (allocCalls_after hc)
    | mmapPhys virt phys size flags =>
      obtain ⟨hf, hpf, -⟩ := mmapPhysFlags_bits flags
      simp only [requestCalls, syscallCalls, hswitch] at hc
      exact .inl (mapAllCalls_after hs.owned hr hf hpf (fun v hv => mmapPhys_frame phys hv) hc)
    | spawnAt addr size =>
      simp only [requestCalls, syscallCalls, spawnCalls] at hc
      split at hc
      · cases hc
      split at hc
      · exact elfCalls_sites hs.owned hq hc
      · cases hc
    | _ => cases hc

end Requests

end Mukrn
