import Mukrn.Memory.KernelMap

/-! The frames that user mode can reach. The calls that map pages take a frame from the allocator
for each of them; these are recorded beside a run. As long as no page and its frame both lie at a 2
MiB boundary, user mode reaches nothing but the frames recorded for its address space. -/
namespace Mukrn
open ByteMemory PageTable Runs

/-- The user pages that a request of slot `c` maps: the root, the page and the frame that
`pmm_alloc_page` returned for it. -/
def givenPages (s : Kernel) (c : ℕ) : Request → List (ℕ × ℕ × ℕ)
  | .call _ (.spawnAt addr size) =>
    (elfMaps s addr size 0).2.map fun p => ((elfMaps s addr size 0).1, p)
  | .call _ (.mmapPhys ..) => []
  | .call _ call => (callMaps s c call).map fun p => ((s.tasks c).pml4Phys, p)
  | _ => []

/-- The record that a run keeps of them. -/
def recordGiven (x : System) (i : Input) (_ : System) (given : List (ℕ × ℕ × ℕ)) :
    List (ℕ × ℕ × ℕ) :=
  (x.kernel.currentTask.elim [] fun c => givenPages x.kernel c i.request) ++ given

/-- The pages of the init program. -/
def bootGiven (cfg : BootConfig) : List (ℕ × ℕ × ℕ) :=
  (bootMaps cfg).2.map fun p => ((bootMaps cfg).1, p)

/-- No page is mapped as the start of a 2 MiB page. -/
def NoneLarge (given : List (ℕ × ℕ × ℕ)) : Prop :=
  ∀ g ∈ given, ¬ (g.2.1 % 2 ^ 21 = 0 ∧ g.2.2 % 2 ^ 21 = 0)

/-- The calls that map frames of the caller's choice or change the rights of pages. -/
def Syscall.isRemap : Syscall → Bool
  | .mmapPhys .. => true
  | .mprotect .. => true
  | _ => false

def Request.isRemap : Request → Bool
  | .call _ c => c.isRemap
  | _ => false

/-- What each step of a run has to meet. Nothing is asked of stores in user mode. -/
def SoundSmall (cfg : BootConfig) (own : ℕ → Prop) (x : System) (i : Input) : Prop :=
  (i.request.isStore = false → SoundSparing cfg own x i) ∧ i.request.isRemap = false ∧
    ∀ c, x.kernel.currentTask = some c → NoneLarge (givenPages x.kernel c i.request)

/-- User mode reaches only frames that are recorded for the root and the page. -/
def OnlyGiven (m : Mem) (r : ℕ) (given : List (ℕ × ℕ × ℕ)) : Prop :=
  ∀ va, (translation m r va).user = true → ∃ v f, (r, v, f) ∈ given ∧ trail va 4 = trail v 4 ∧
    (translation m r va).target = some (f + va % 4096)

/-- The same as a fact about walks, with the frames still in use for user data. -/
def ReachesGiven (use : ℕ → Use) (m : Mem) (r : ℕ) (given : List (ℕ × ℕ × ℕ)) : Prop :=
  ∀ va pa, walk userOpen m va 3 r = some pa → ∃ v f, (r, v, f) ∈ given ∧ trail va 4 = trail v 4 ∧
    pa = f + va % 4096 ∧ use f = .data

section

variable {use use' : ℕ → Use} {m m' : Mem} {r va : ℕ} {given given' : List (ℕ × ℕ × ℕ)}

theorem translation_of_user {pa : ℕ} (hw : walk userOpen m va 3 r = some pa) :
    (translation m r va).user = true ∧ (translation m r va).target = some pa := by
  rw [translation_user, translation_target, hw]
  exact ⟨rfl, walk_mono access_userOpen.present hw⟩

theorem ReachesGiven.onlyGiven (h : ReachesGiven use m r given) : OnlyGiven m r given := by
  intro va hu
  rw [translation_user] at hu
  obtain ⟨pa, hw⟩ := Option.isSome_iff_exists.mp hu
  obtain ⟨v, f, hg, ht, rfl, -⟩ := h va pa hw
  exact ⟨v, f, hg, ht, (translation_of_user hw).2⟩

/-- A page that is not mapped as a 2 MiB page stands for itself. -/
theorem Touches.small {p : ℕ × ℕ} (ht : Touches p.1 p.2 va)
    (hp : ¬ (p.1 % 2 ^ 21 = 0 ∧ p.2 % 2 ^ 21 = 0)) :
    trail va 4 = trail p.1 4 ∧ mappedTo p.1 p.2 va = p.2 + va % 4096 :=
  ⟨ht.resolve_right fun h => hp h.1, if_neg hp⟩

theorem NewSpace.reachesGiven {ms : List (ℕ × ℕ)} (hn : NewSpace ms m r)
    (hms : NoneLarge (ms.map fun p => (r, p))) (hd : ∀ p ∈ ms, use p.2 = .data) :
    ReachesGiven use m r (ms.map fun p => (r, p)) := by
  intro va pa hpa
  obtain ⟨p, hp, ht, rfl⟩ := hn.user_target hpa
  have hmem : (r, p) ∈ ms.map fun p => (r, p) := List.mem_map_of_mem hp
  obtain ⟨h4, hto⟩ := ht.small (hms _ hmem)
  exact ⟨p.1, p.2, hmem, h4, hto, hd p hp⟩

end

/-- One step. -/
theorem SpaceEffect.reachesGiven {s k : Kernel} {c : ℕ} {use use' : ℕ → Use} {q : Request}
    {given : List (ℕ × ℕ × ℕ)} (h : SpaceEffect s c use' k q) (hc : c < s.numTasks)
    (hd : KeepsData use use') (hq : q.isRemap = false) (hsmall : NoneLarge (givenPages s c q))
    (hp : ∀ i < s.numTasks, ReachesGiven use s.machine.mem (s.tasks i).pml4Phys given) :
    ∀ i < k.numTasks, ReachesGiven use' k.machine.mem (k.tasks i).pml4Phys
      (givenPages s c q ++ given) := by
  intro i hi va pa hpa
  -- a page that the request took a frame for
  have hnew {r : ℕ} {p : ℕ × ℕ} (hmem : (r, p) ∈ givenPages s c q) (ht : Touches p.1 p.2 va)
      (hg : use' p.2 = .data) : ∃ v f, (r, v, f) ∈ givenPages s c q ++ given ∧
        trail va 4 = trail v 4 ∧ mappedTo p.1 p.2 va = f + va % 4096 ∧ use' f = .data := by
    obtain ⟨h4, hto⟩ := ht.small (hsmall _ hmem)
    exact ⟨p.1, p.2, List.mem_append_left _ hmem, h4, hto, hg⟩
  have hreached := h.userReached hc hi hpa
  generalize (k.tasks i).pml4Phys = r at hreached ⊢
  cases hreached with
  | before hj hr hw =>
    obtain ⟨v, f, hmem, h4, heq, hf⟩ := hp _ hj va pa hw
    exact ⟨v, f, List.mem_append_right _ (hr ▸ hmem), h4, heq, hd f hf⟩
  | @mapped io call p hr hp ht hpa hg =>
    rw [hr, hpa]
    cases call with
    | mmapPhys => cases hq
    | spawnAt => cases hp
    | _ => exact hnew (List.mem_map_of_mem hp) ht (hg rfl)
  | reflagged => cases hq
  | loaded hr hp ht hpa hg =>
    rw [hr, hpa]
    exact hnew (List.mem_map_of_mem hp) ht hg

section Stores

variable {use : ℕ → Use} {fl : List ℕ} {s : Kernel}

/-- The kernel relies on no page of user data and on no page without a use. -/
theorem Safe.harmless_page (hs : Safe use fl s) {f : ℕ} {m : Mem} (hf0 : f % 4096 = 0)
    (hf : use f = .none ∨ use f = .data)
    (hm : ∀ a, a < f ∨ f + 4096 ≤ a → m a = s.machine.mem a) : Harmless s m := by
  intro g hg a h1 h2
  have hgu : use g ≠ .none ∧ use g ≠ .data := by
    rcases hg with ⟨fl', hchain, hmem⟩ | hg | ⟨i, hi, p, hat⟩
    · obtain rfl := hchain.unique hs.owned.chain
      simp [(hs.owned.free g).mp hmem]
    · simp [(hs.owned.templateUse g).mp hg]
    · have hst := hs.owned.tree.linked.tableAt access_present.present
        (shape_eq_some.mpr (hs.root i hi)) hat
      simp [shape_eq_some.mp hst]
  have hgp := (hs.owned.page g hgu.1).1
  have hne : g ≠ f := by
    rintro rfl
    exact hf.elim hgu.1 hgu.2
  exact hm a (by omega)

/-- A store in user mode is sound where the page that it reaches is such a page. -/
theorem Safe.sound_store {c virt : ℕ} {b : UInt8} (hs : Safe use fl s) (hc : Scheduled s c)
    (hreach : ∀ pa, walk userOpen s.machine.mem virt 3 (s.tasks c).pml4Phys = some pa →
      use (frameOf pa) = .none ∨ use (frameOf pa) = .data) :
    SoundRequest s c (.store virt b) := by
  intro h hw
  obtain ⟨-, a, ha, rfl⟩ := userStore_cases hw
  have hopen (e : ℕ) (he : userWritable e) : userOpen e := by
    simp only [userWritable, userOpen, Bool.and_eq_true, beq_iff_eq] at he ⊢
    omega
  have hu := walk_mono hopen ha
  rw [hc.root] at hu
  refine hs.harmless_page (Nat.mul_mod_left _ _) (hreach a hu) fun x hx =>
    Function.update_of_ne ?_ ..
  omega

/-- Where user mode reaches recorded frames only, its stores are sound. -/
theorem ReachesGiven.sound_store {c virt : ℕ} {b : UInt8} {given : List (ℕ × ℕ × ℕ)}
    (hs : Safe use fl s) (hc : Scheduled s c)
    (hp : ReachesGiven use s.machine.mem (s.tasks c).pml4Phys given) :
    SoundRequest s c (.store virt b) := by
  refine hs.sound_store hc fun pa hw => ?_
  obtain ⟨v, f, -, -, rfl, hf⟩ := hp virt pa hw
  have hpage := (hs.owned.page f (by simp [hf])).1
  have he : frameOf (f + virt % 4096) = f := by
    unfold frameOf
    omega
  rw [he]
  exact .inr hf

end Stores

/-- In every run that maps no 2 MiB page and spares the kernel's pages, user mode reaches only
frames that the allocator returned for that page of that address space. -/
theorem user_reaches_given {cfg : BootConfig} {own : ℕ → Prop} {x0 : System}
    {y : System × List (ℕ × ℕ × ℕ)} (hg : GoodBoot cfg) (hk : kmain cfg = some x0)
    (hb : SparingBoot cfg own) (hboot : NoneLarge (bootGiven cfg))
    (hy : Reach (withGhost step recordGiven) (fun x i => SoundSmall cfg own x.1 i)
      (x0, bootGiven cfg) y) :
    ∀ i < y.1.kernel.numTasks,
      OnlyGiven y.1.kernel.machine.mem (y.1.kernel.tasks i).pml4Phys y.2 ∧
        KernelMapped cfg own y.1.kernel.machine.mem (y.1.kernel.tasks i).pml4Phys := by
  obtain ⟨use, fl, hs, hspace, -⟩ := kmain_spaces hg hk
  have hstart (i : ℕ) (hi : i < x0.kernel.numTasks) :
      ReachesGiven use x0.kernel.machine.mem (x0.kernel.tasks i).pml4Phys (bootGiven cfg) := by
    obtain ⟨hroot, hn, -, hdata⟩ := hspace i hi
    rw [hroot]
    exact hn.reachesGiven hboot hdata
  have hinv := reach_safe_record (P := fun use k given =>
      (∀ i < k.numTasks, ReachesGiven use k.machine.mem (k.tasks i).pml4Phys given) ∧
        ∀ i < k.numTasks, KernelMapped cfg own k.machine.mem (k.tasks i).pml4Phys) hk
    ⟨use, fl, hs, hstart, kmain_kernelMapped hg hk hb⟩ ?_ ?_ hy
  · obtain ⟨-, use', fl', -, hp, hm⟩ := hinv
    exact fun i hi => ⟨(hp i hi).onlyGiven, hm i hi⟩
  · intro x g i c use fl hc hs hp hok
    cases hq : i.request with
    | store virt b => exact (hp.1 c hc.lt).sound_store hs hc
    | _ =>
      rw [← hq]
      exact (hok.1 (by rw [hq]; rfl)).1 c hc.current
  · intro x i y g c use fl use' hc hs hp hok h hd heffect
    refine ⟨?_, SparesKernel.step hs hc hb.low (fun hst => ((hok.1 hst).2 c hc.current).1) hp.2
      heffect h⟩
    rw [recordGiven, hc.current]
    exact heffect.reachesGiven hc.lt hd hok.2.1 (hok.2.2 c hc.current) hp.1

section Sample

/-- One page is mapped to `f`, the first free page. -/
theorem sysMmap_one {s : Kernel} {c f virt : ℕ} {use : ℕ → Use} {fl : List ℕ}
    (ho : Owned use (f :: fl) s.machine) (hc : s.currentTask = some c)
    (hv : pageCursor (rangeStart virt) (rangeEnd virt 4096) = [virt]) :
    ∃ res h, sysMmap s virt 4096 2 = (res, { s with machine := h }) ∧
      h = pagingSwitch (mapPage ((pagingSwitch s.machine (s.tasks c).pml4Phys).take f) virt f 7)
        s.machine.pagingRoot := by
  have hflags : mmapFlags 2 = 7 := by decide
  obtain ⟨hmap, -⟩ := freshMaps_cons (ho.switch (s.tasks c).pml4Phys) 7 virt []
  simp only [sysMmap, hc, mapPagesAt, hv, hflags, hmap, mapFresh]
  exact ⟨_, _, rfl, rfl⟩

/-- A page is mapped by a task that runs alone with `f` as the first free page. -/
theorem step_mmap {x : System} {r0 : Registers} (r : Registers) (virt : ℕ) {use : ℕ → Use}
    {f : ℕ} {fl : List ℕ} (hs : Safe use (f :: fl) x.kernel) (hp : x.phase = .user r0)
    (hn : x.kernel.numTasks = 1) (hc : x.kernel.currentTask = some 0) (hr : r.intNo = 0x80)
    (hcall : r.syscall = .mmap virt 4096 2)
    (hv : pageCursor (rangeStart virt) (rangeEnd virt 4096) = [virt]) :
    ∃ y r1, step x (.trap quietPorts r) = some y ∧ y.phase = .user r1 ∧
      y.kernel = { x.kernel with machine := y.kernel.machine } ∧
      y.kernel.machine = pagingSwitch (mapPage ((pagingSwitch x.kernel.machine
        (x.kernel.tasks 0).pml4Phys).take f) virt f 7) x.kernel.machine.pagingRoot ∧
      givenPages x.kernel 0 (.call quietPorts (.mmap virt 4096 2)) =
        [((x.kernel.tasks 0).pml4Phys, virt, f)] := by
  have hflags : mmapFlags 2 = 7 := by decide
  obtain ⟨-, hms⟩ := freshMaps_cons (hs.owned.switch (x.kernel.tasks 0).pml4Phys) 7 virt []
  obtain ⟨res, h, hsys, hh⟩ := sysMmap_one hs.owned hc hv
  have hk : syscallHandler x.kernel quietPorts r.syscall =
      some (.done (toU64 res) { x.kernel with machine := h }) := by
    rw [hcall]
    exact congrArg (fun p => some (returnInt p)) hsys
  refine ⟨_, _, step_alone hp hr hk hn.le, rfl, rfl, hh, ?_⟩
  simp only [givenPages, callMaps, hv, hflags, hms, freshMaps, List.map_cons, List.map_nil]

/-- The first task of a boot, with the page that it is given first. -/
theorem boot_first {e820 : List E820Entry} {f : ℕ} (hb : Bootable (sampleConfig e820) 1)
    (hf : (usablePages 0x110000 e820).reverse.tail.head? = some f) :
    ∃ x r use fl, kmain (sampleConfig e820) = some x ∧ x.phase = .user r ∧ x.kernel.table = .boot ∧
      Safe use (f :: fl) x.kernel ∧ (usablePages 0x110000 e820).length ≤ fl.length + 26 ∧
      LowOpen x.kernel.machine.mem (x.kernel.tasks 0).pml4Phys ∧
      (∀ g ∈ bootGiven (sampleConfig e820), g.2.2 ∈ usablePages 0x110000 e820) ∧
      (x.kernel.tasks 0).loadAddr = 0x400000 ∧ (x.kernel.tasks 0).codePages = 1 := by
  obtain ⟨x, r, use, fl, hk, hp, ht, hs, -, hlen, ⟨f0, m, ms, -, hf0, hbytes, -, hmaps, hframes,
    hload, hcode⟩, hhead, -⟩ := hb.starts
  have hn : x.kernel.numTasks = 1 := congrArg TaskTable.num ht
  have hlen : (usablePages 0x110000 e820).length ≤ fl.length + 25 := hlen
  obtain ⟨fl, rfl⟩ := List.head?_eq_some_iff.mp (hhead.trans hf)
  obtain ⟨use0, fl0, -, hspace, -⟩ := kmain_spaces hb.goodBoot hk
  obtain ⟨hroot, -, hlow, -⟩ := hspace 0 (by omega)
  have hbytes (i : ℕ) (hi : i < 120) : m (f0 + i) = sampleImage 0x10F000 (0x10F000 + i) :=
    hbytes i (hi.trans (by decide : 120 < 128))
  rw [sample_maxVaddr hf0.le hbytes] at hcode
  rw [List.length_cons] at hlen
  refine ⟨x, r, use, fl, hk, hp, ht, hs, by omega, ?_, fun g hg => ?_, hload, hcode⟩
  · rw [hroot]
    exact hlow
  · rw [bootGiven, hmaps] at hg
    obtain ⟨p, hp, rfl⟩ := List.mem_map.mp hg
    exact hframes p hp

/-- The first task of the sample boot creates a thread, whose stack is the first free page. -/
theorem sample_thread : ∃ x y r use fl, kmain (sampleConfig sampleMap) = some x ∧
    x.kernel.currentTask = some 0 ∧ x.kernel.machine.freeStack = 0x14E000 ∧
    step x (.trap quietPorts (.call 21 0 0 0 0)) = some y ∧ y.phase = .user r ∧
    TaskTable.boot.step (.clone 0 0 0 0) = some y.kernel.table ∧ Safe use fl y.kernel ∧
    4 ≤ fl.length ∧ (y.kernel.tasks 1).stackPhys = 0x14E000 ∧ (y.kernel.tasks 1).codePages = 0 ∧
    (y.kernel.tasks 0).pml4Phys = (y.kernel.tasks 1).pml4Phys ∧ Scheduled y.kernel 1 := by
  obtain ⟨x, r, use, fl, hk, hp, ht, hs, hlen, -⟩ :=
    boot_first sample_bootable (f := 0x14E000) (by decide)
  have hall : (usablePages 0x110000 sampleMap).length = 64 := by decide
  have hc : x.kernel.currentTask = some 0 := congrArg TaskTable.current ht
  have hn : x.kernel.numTasks = 1 := congrArg TaskTable.num ht
  obtain ⟨h, y, r1, use1, hstep, hyp, hty, hsy, hsame⟩ := step_clone quietPorts
    (.call 21 0 0 0 0) hs hc (by omega) hp (by rw [hn]; decide) rfl rfl
  rw [ht] at hty
  have htask (i : ℕ) := hsame.tasks i
  have hcy : y.kernel.currentTask = some 1 :=
    congrArg TaskTable.current (Option.some.inj hty).symm
  have hreach : Reachable y := ⟨_, x, hk, .tail .refl trivial hstep⟩
  refine ⟨x, y, r1, use1, fl, hk, hc, hs.owned.chain.1, hstep, hyp, hty, hsy, by omega, ?_, ?_, ?_,
    (hreach.scheduled (by rw [hyp]; simp) hcy).1⟩
  · obtain ⟨st, rsp, he⟩ := htask 1
    rw [he]
    simp [addTask, hn, newTask, ipcInitTask]
  · obtain ⟨st, rsp, he⟩ := htask 1
    rw [he]
    simp [addTask, hn, newTask, ipcInitTask]
  · obtain ⟨st, rsp, he⟩ := htask 1
    obtain ⟨st0, rsp0, he0⟩ := htask 0
    rw [he, he0]
    simp [addTask, hn, newTask, ipcInitTask]

/-- The first task of the sample boot maps one page above the kernel's. -/
private theorem sparing_mmap {x : System} {use : ℕ → Use} {f virt : ℕ} {fl : List ℕ}
    (hk : kmain (sampleConfig sampleMap) = some x) (hs : Safe use (f :: fl) x.kernel)
    (hn : 0 < x.kernel.numTasks)
    (hv : pageCursor (rangeStart virt) (rangeEnd virt 4096) = [virt])
    (hregion : virt / 2 ^ 21 = 3) :
    SparesKernel (sampleConfig sampleMap) samplePages x.kernel 0
      (.call quietPorts (.mmap virt 4096 2)) ∧
    ∀ p ∈ requestCalls x.kernel 0 (.call quietPorts (.mmap virt 4096 2)), p.Clear samplePages := by
  have ho := hs.owned.switch (x.kernel.tasks 0).pml4Phys
  obtain ⟨ho1, hr1, -⟩ := ho.take_data (hs.root 0 hn)
  obtain ⟨-, hms⟩ := freshMaps_cons ho (mmapFlags 2) virt []
  refine ⟨fun va hva => ?_, fun p hp => ?_⟩
  · rintro ⟨p, hp, ht⟩
    simp only [callMaps, hv, hms, freshMaps, List.mem_singleton] at hp
    rw [hp] at ht
    have htrail : trail va 3 = trail virt 3 :=
      ht.elim (fun h4 => (trail_last h4).1) fun h3 => h3.2
    rw [trail_three_iff, hregion] at htrail
    have hva := sample_kernel_low hva
    omega
  · simp only [requestCalls, syscallCalls, hv, freshCalls, ho.alloc_eq, ho.head.2.2.1.ne', if_false,
      List.append_nil, List.mem_append] at hp
    have htaken : p.page ∈ f :: fl ∧ p.mapped = [] := by
      rcases hp with hp | hp
      · exact allocCalls_taken ho.apart hp
      · obtain ⟨-, hfl, hm⟩ := mapCalls_after ho1.apart hr1 hp
        exact ⟨List.mem_cons_of_mem f hfl, hm⟩
    refine ⟨sample_free hk hs htaken.1, fun va _ _ => ?_⟩
    rw [htaken.2]
    exact not_touchedBy_nil va

/-- The init program of the sample boot is given a page, and user mode reaches that page's frame. -/
theorem user_reaches_given_sample : ∃ x0 y, kmain (sampleConfig sampleMap) = some x0 ∧
    NoneLarge (bootGiven (sampleConfig sampleMap)) ∧
    Reach (withGhost step recordGiven)
      (fun x i => SoundSmall (sampleConfig sampleMap) samplePages x.1 i)
      (x0, bootGiven (sampleConfig sampleMap)) y ∧ y.1.kernel.numTasks = 1 ∧
    (translation y.1.kernel.machine.mem (y.1.kernel.tasks 0).pml4Phys 0x600000).user = true ∧
    OnlyGiven y.1.kernel.machine.mem (y.1.kernel.tasks 0).pml4Phys y.2 := by
  obtain ⟨x, r, use, fl, hk, hp, ht, hs, hlen, hlow, hframes, -⟩ :=
    boot_first sample_bootable (f := 0x14E000) (by decide)
  have hall : (usablePages 0x110000 sampleMap).length = 64 := by decide
  have hc : x.kernel.currentTask = some 0 := congrArg TaskTable.current ht
  have hn : x.kernel.numTasks = 1 := congrArg TaskTable.num ht
  obtain ⟨y, r1, hstep, -, hy, hmachine, hgiven⟩ := step_mmap
    (.call 11 0x600000 4096 2 0) 0x600000 hs hp hn hc rfl rfl (by decide)
  have hny : y.kernel.numTasks = 1 := by rw [hy, hn]
  have hroot : (y.kernel.tasks 0).pml4Phys = (x.kernel.tasks 0).pml4Phys := by rw [hy]
  have hunaligned : ∀ g ∈ usablePages 0x110000 sampleMap, g % 2 ^ 21 ≠ 0 := by decide
  have hboot : NoneLarge (bootGiven (sampleConfig sampleMap)) :=
    fun g hg hl => hunaligned _ (hframes g hg) hl.2
  have hsmall : SoundSmall (sampleConfig sampleMap) samplePages x
      (.trap quietPorts (.call 11 0x600000 4096 2 0)) := by
    refine ⟨fun _ => ⟨fun _ _ => trivial, fun c hc' => ?_⟩, rfl, fun c hc' g hg => ?_⟩
    · obtain rfl := Option.some.inj (hc.symm.trans hc')
      exact sparing_mmap hk hs (by omega) (by decide) (by decide)
    obtain rfl := Option.some.inj (hc.symm.trans hc')
    change g ∈ givenPages x.kernel 0 (.call quietPorts (.mmap 0x600000 4096 2)) at hg
    rw [hgiven, List.mem_singleton] at hg
    rw [hg]
    exact (by decide : ¬ (0x600000 % 2 ^ 21 = 0 ∧ 0x14E000 % 2 ^ 21 = 0))
  have hrun : Reach (withGhost step recordGiven)
      (fun x i => SoundSmall (sampleConfig sampleMap) samplePages x.1 i)
      (x, bootGiven (sampleConfig sampleMap)) (y, recordGiven x _ y _) :=
    .tail .refl hsmall (withGhost_eq_some.mpr ⟨hstep, rfl⟩)
  have ho := hs.owned.switch (x.kernel.tasks 0).pml4Phys
  have hr := hs.root 0 (by omega)
  obtain ⟨ho1, hr1, -⟩ := ho.take_data hr
  have hmissing := missingTables_le ((pagingSwitch x.kernel.machine
    (x.kernel.tasks 0).pml4Phys).take 0x14E000) 0x600000 0x14E000
  obtain ⟨sh', fl', hm⟩ := mapPage_mapped 0x600000 ho1.apart hr1
    (by decide : 0x14E000 % 4096 = 0) (by decide) (by decide : 7 < 128) (by decide)
    (hmissing.trans (by omega))
  have huser := mapOne_grants ho hr hlow (by decide) access_userOpen (by decide) (by decide) hm.self
  refine ⟨x, _, hk, hboot, hrun, hny, ?_,
    (user_reaches_given sample_bootable.goodBoot hk sample_sparingBoot hboot hrun 0
      (hny.symm ▸ Nat.one_pos)).1⟩
  show (translation y.kernel.machine.mem (y.kernel.tasks 0).pml4Phys 0x600000).user = true
  rw [hroot, hmachine, pagingSwitch_mem]
  exact (translation_of_user huser).1

/-- A map of 66 usable pages, of which the last but one lies at a 2 MiB boundary. -/
def boundaryMap : List E820Entry := [⟨0x7C0000, 0x42000, 1⟩]

theorem boundaryMap_bootable : Bootable (sampleConfig boundaryMap) 1 :=
  sampleConfig_bootable ⟨by decide, List.pairwise_singleton _ _⟩ (by decide)

/-- The first page that the init program asks for is mapped as a 2 MiB page, and user mode reaches
memory behind all that the allocator has. -/
theorem mmap_exposes_frames : ∃ x0 y, kmain (sampleConfig boundaryMap) = some x0 ∧
    withGhost step recordGiven (x0, bootGiven (sampleConfig boundaryMap))
      (.trap quietPorts (.call 11 0x600000 4096 2 0)) = some y ∧ y.1.kernel.numTasks = 1 ∧
    (translation y.1.kernel.machine.mem (y.1.kernel.tasks 0).pml4Phys 0x602000).user = true ∧
    (translation y.1.kernel.machine.mem (y.1.kernel.tasks 0).pml4Phys 0x602000).target =
      some 0x802000 ∧
    ¬ OnlyGiven y.1.kernel.machine.mem (y.1.kernel.tasks 0).pml4Phys y.2 := by
  obtain ⟨x, r, use, fl, hk, hp, ht, hs, hlen, hlow, hframes, -⟩ :=
    boot_first boundaryMap_bootable (f := 0x800000) (by decide)
  have hall : (usablePages 0x110000 boundaryMap).length = 66 := by decide
  have hc : x.kernel.currentTask = some 0 := congrArg TaskTable.current ht
  have hn : x.kernel.numTasks = 1 := congrArg TaskTable.num ht
  obtain ⟨y, r1, hstep, -, hy, hmachine, hgiven⟩ := step_mmap
    (.call 11 0x600000 4096 2 0) 0x600000 hs hp hn hc rfl rfl (by decide)
  have hny : y.kernel.numTasks = 1 := by rw [hy, hn]
  have hroot : (y.kernel.tasks 0).pml4Phys = (x.kernel.tasks 0).pml4Phys := by rw [hy]
  have ho := hs.owned.switch (x.kernel.tasks 0).pml4Phys
  have hr := hs.root 0 (by omega)
  obtain ⟨ho1, hr1, -⟩ := ho.take_data hr
  have hlarge : 0x600000 % 2 ^ 21 = 0 ∧ 0x800000 % 2 ^ 21 = 0 := by decide
  have hmissing := missingTables_le ((pagingSwitch x.kernel.machine
    (x.kernel.tasks 0).pml4Phys).take 0x800000) 0x600000 0x800000
  obtain ⟨hfew, -⟩ | ⟨-, sh', fl', hm⟩ := mapPage_apart 0x600000 ho1.apart hr1
    (by decide : 0x800000 % 4096 = 0) (by decide) (by decide : 7 < 128)
  · omega
  obtain ⟨t, hat, hleaf⟩ := hm.leaf
  have hbits : 0x800000 ||| 7 ||| pagePs = 0x800000 + (7 + 128) :=
    hugeLeaf_eq (by decide) (by decide)
  simp only [if_pos hlarge, hbits] at hat hleaf
  have hleads := leads_large hat hleaf hlarge (by decide) (by decide)
    (by decide : trail 0x602000 3 = trail 0x600000 3)
  have huser := mapOne_grants ho hr hlow (by decide) access_userOpen (by decide) (by decide) hleads
  have htarget : mappedTo 0x600000 0x800000 0x602000 = 0x802000 := by decide
  rw [htarget] at huser
  obtain ⟨hopen, htranslated⟩ := translation_of_user huser
  have hnone (g : ℕ × ℕ × ℕ) (hg : g ∈ recordGiven x (.trap quietPorts (.call 11 0x600000 4096 2 0))
      y (bootGiven (sampleConfig boundaryMap))) : g.2.2 ≠ 0x802000 := by
    rw [recordGiven, hc] at hg
    rcases List.mem_append.mp hg with hg | hg
    · change g ∈ givenPages x.kernel 0 (.call quietPorts (.mmap 0x600000 4096 2)) at hg
      rw [hgiven, List.mem_singleton] at hg
      rw [hg]
      exact (by decide : 0x800000 ≠ 0x802000)
    · have hfree : 0x802000 ∉ usablePages 0x110000 boundaryMap := by decide
      exact fun he => hfree (he ▸ hframes g hg)
  refine ⟨x, (y, _), hk, withGhost_eq_some.mpr ⟨hstep, rfl⟩, hny, ?_⟩
  dsimp only
  rw [hroot, hmachine, pagingSwitch_mem]
  refine ⟨hopen, htranslated, fun honly => ?_⟩
  obtain ⟨v, f, hg, -, hf⟩ := honly 0x602000 hopen
  exact hnone _ hg (Option.some.inj (hf.symm.trans htranslated))

end Sample

end Mukrn
