import Mukrn.Memory.Run
import Mukrn.Table.Identity
import Mukrn.Memory.PmmCalls
import Mukrn.Memory.Unmap

/-! The kernel's own pages in the address spaces of the tasks. The kernel uses page tables, stacks
and free pages at their physical addresses, under the page table of the task it serves. A copy of
the template maps these pages to themselves, out of reach of user mode, and no request is checked
against them: what keeps them is that the addresses a request is about lead elsewhere. -/
namespace Mukrn
open ByteMemory PageTable LinkedStack Runs

/-- The addresses the kernel uses for itself: the first MiB with the boot page tables and the
descriptor tables, its image, and the pages `own` of the allocator. -/
def KernelAddress (cfg : BootConfig) (own : ℕ → Prop) (va : ℕ) : Prop :=
  va < 0x100000 ∨ va / 4096 * 4096 < cfg.kernelEnd ∨ ∃ g, own g ∧ g ≤ va ∧ va < g + 4096

/-- Under this root the kernel's pages are present at their own addresses, for the supervisor. -/
def KernelMapped (cfg : BootConfig) (own : ℕ → Prop) (m : Mem) (r : ℕ) : Prop :=
  ∀ va, KernelAddress cfg own va →
    (translation m r va).target = some va ∧ (translation m r va).user = false

/-- A write that changes nothing in the first MiB or in the kernel image, where the kernel's
variables are. -/
def SparesImage (cfg : BootConfig) (m m' : Mem) : Prop :=
  ∀ a, a < 0x100000 ∨ a / 4096 * 4096 < cfg.kernelEnd → m' a = m a

/-- A request of slot `c` whose pages share no leaf with the kernel's, and whose writes spare the
image. Requests that map pages are judged by the frames they are mapped to as well, since a page may
take the 2 MiB around it along. -/
def SparesKernel (cfg : BootConfig) (own : ℕ → Prop) (s : Kernel) (c : ℕ) : Request → Prop
  | .call _ (.munmap virt size) => ∀ v ∈ pageCursor (rangeStart virt) (rangeEnd virt size),
      ∀ va, KernelAddress cfg own va → ¬ SharesLeaf s.machine.mem (s.tasks c).pml4Phys v va
  | .call _ (.mprotect virt size _) => ∀ v ∈ pageCursor (rangeStart virt) (rangeEnd virt size),
      ∀ va, KernelAddress cfg own va → trail va 4 ≠ trail v 4
  | .call _ (.spawnAt addr size) => ∀ va, KernelAddress cfg own va →
      ¬ TouchedBy (elfMaps s addr size 0).2 va
  | .call _ (.recv msg) => ∀ h, (s.tasks c).ipcCount ≠ 0 →
      writeUserMsg s.machine msg ((s.tasks c).ipcQueue (s.tasks c).ipcTail) = some h →
      SparesImage cfg s.machine.mem h.mem
  | .call _ call => ∀ va, KernelAddress cfg own va → ¬ TouchedBy (callMaps s c call) va
  | .store virt b => ∀ h, userStore s.machine virt b = some h → SparesImage cfg s.machine.mem h.mem
  | _ => True

/-- A page of the set, which the request has not mapped over before the call. -/
def PmmCall.Clear (own : ℕ → Prop) (c : PmmCall) : Prop :=
  own c.page ∧ ∀ va, c.page ≤ va → va < c.page + 4096 → ¬ TouchedBy c.mapped va

/-- The request spares the kernel, and the pages it takes from the allocator or gives back are of
the set. -/
def Sparing (cfg : BootConfig) (own : ℕ → Prop) (x : System) (i : Input) : Prop :=
  ∀ c, x.kernel.currentTask = some c → SparesKernel cfg own x.kernel c i.request ∧
    ∀ p ∈ requestCalls x.kernel c i.request, p.Clear own

/-- What each step of a run has to meet. -/
def SoundSparing (cfg : BootConfig) (own : ℕ → Prop) (x : System) (i : Input) : Prop :=
  Sound x i ∧ Sparing cfg own x i

/-- The calls with which `kmain` creates the first task. -/
def bootCalls (cfg : BootConfig) : List PmmCall :=
  elfCalls (initialKernel (bootMachine cfg)) cfg.initStart cfg.initSize 1

/-- Boot takes no pages but those of the set for the interrupt stack and the first task. All the
kernel's addresses lie in the first GiB, which the template maps, and the init program is loaded at
others. That `own` has the pages the kernel really uses is what makes its accesses at physical
addresses those of the code; the proofs start from there. -/
structure SparingBoot (cfg : BootConfig) (own : ℕ → Prop) : Prop where
  low : ∀ va, KernelAddress cfg own va → va < 2 ^ 30
  spared : ∀ va, KernelAddress cfg own va → ¬ TouchedBy (bootMaps cfg).2 va
  stack : ∀ g, (usablePages cfg.kernelEnd cfg.e820).getLast? = some g → own g
  taken : ∀ g ∈ usablePages cfg.kernelEnd cfg.e820, own g ∨ ∀ p ∈ bootCalls cfg, p.page ≠ g

def Request.isStore : Request → Bool
  | .store .. => true
  | _ => false

section

variable {cfg : BootConfig} {own : ℕ → Prop} {m m' : Mem} {r va : ℕ}

theorem SparesKernel.maps {s : Kernel} {c : ℕ} {io : Ports} {call : Syscall}
    (h : SparesKernel cfg own s c (.call io call)) (hva : KernelAddress cfg own va) :
    ¬ TouchedBy (callMaps s c call) va := by
  cases call with
  | munmap | mprotect | spawnAt | recv => exact not_touchedBy_nil va
  | _ => exact h va hva

/-- Where the kernel's addresses are translated as before they stay mapped. -/
theorem KernelMapped.congr (h : KernelMapped cfg own m r)
    (hw : ∀ va, KernelAddress cfg own va → translation m' r va = translation m r va) :
    KernelMapped cfg own m' r := by
  intro va hva
  rw [hw va hva]
  exact h va hva

/-- A new address space whose pages lie elsewhere. -/
theorem NewSpace.kernelMapped {ms : List (ℕ × ℕ)} (hn : NewSpace ms m r)
    (hlow : ∀ va, KernelAddress cfg own va → va < 2 ^ 30)
    (hms : ∀ va, KernelAddress cfg own va → ¬ TouchedBy ms va) : KernelMapped cfg own m r := by
  intro va hva
  have hlt := hlow va hva
  have hlow : va / 2 ^ 30 % 2 ^ 18 = 0 := by omega
  rw [translation_target, translation_user, hn.kept _ access_present va (hms va hva),
    hn.kept _ access_userOpen va (hms va hva), templateWalk, templateWalk,
    if_pos ⟨by decide, hlow⟩, if_neg fun h => absurd h.1 (by decide), Nat.mod_eq_of_lt hlt]
  exact ⟨rfl, rfl⟩

theorem SpaceChange.translation {changed : ℕ → Prop} {s k : Kernel} {c i : ℕ}
    (h : SpaceChange changed s c k) (hi : i < s.numTasks)
    (hva : ¬ ((s.tasks i).pml4Phys = (s.tasks c).pml4Phys ∧ changed va)) :
    translation k.machine.mem (s.tasks i).pml4Phys va =
      translation s.machine.mem (s.tasks i).pml4Phys va := by
  simp only [Mukrn.translation, h.walks _ access_present i hi va hva,
    h.walks _ access_writable i hi va hva, h.walks _ access_userOpen i hi va hva]

end

section Step

variable {cfg : BootConfig} {own : ℕ → Prop} {use use' : ℕ → Use} {fl : List ℕ} {x y : System}
  {i : Input} {c : ℕ}

/-- After a call that keeps page ownership as it is, the end of the trap changes no translation. -/
theorem step_translation {io : Ports} {call : Syscall} {o : SysOutcome} {r : ℕ} (va : ℕ)
    (hsch : Scheduled x.kernel c) (hq : i.request = .call io call)
    (ho : syscallHandler x.kernel io call = some o) (hsafe : Safe use fl o.kernel)
    (hr : use r = .table r []) (h : step x i = some y) :
    translation y.kernel.machine.mem r va = translation o.kernel.machine.mem r va := by
  obtain ⟨k, hk, hf⟩ := step_finish h
  have hserved := serve_cases hk
  have hcur (d : ℕ) (hd : k.currentTask = some d) : d < k.numTasks := by
    have hk := hsch.served hserved
    obtain rfl := Option.some.inj (hk.current.symm.trans hd)
    exact hk.lt
  rw [hq] at hserved
  cases hserved with
  | call ho' =>
    obtain rfl := Option.some.inj (ho.symm.trans ho')
    obtain ⟨-, hw⟩ := hsafe.finish hcur hf
    exact translation_congr hw (shape_eq_some.mpr hr) id

/-- A sparing `munmap`, traced through the loop: the leaves it clears are not those of `va`. -/
theorem munmap_spares {io : Ports} {virt size va : ℕ} (hs : Safe use fl x.kernel)
    (hsch : Scheduled x.kernel c) (hq : i.request = .call io (.munmap virt size))
    (hva : ∀ v ∈ pageCursor (rangeStart virt) (rangeEnd virt size),
      ¬ SharesLeaf x.kernel.machine.mem (x.kernel.tasks c).pml4Phys v va)
    (h : step x i = some y) :
    translation y.kernel.machine.mem (x.kernel.tasks c).pml4Phys va =
      translation x.kernel.machine.mem (x.kernel.tasks c).pml4Phys va := by
  have hroot := hs.root c hsch.lt
  have hkept := foldl_unmapPage_kept (hs.owned.switch (x.kernel.tasks c).pml4Phys) hroot hva
  have hu := foldl_unmapPage_spec (hs.owned.switch (x.kernel.tasks c).pml4Phys) hroot
    (pageCursor (rangeStart virt) (rangeEnd virt size))
  have hsafe : Safe use fl (sysMunmap x.kernel virt size).2 := by
    unfold sysMunmap
    split
    next hn => cases hsch.current.symm.trans hn
    next d hd =>
      obtain rfl := Option.some.inj (hsch.current.symm.trans hd)
      exact hs.machine (hu.owned.switch _) (fun _ _ h => h) fun _ _ => rfl
  rw [step_translation va hsch hq rfl hsafe hroot h]
  change translation (sysMunmap x.kernel virt size).2.machine.mem _ va = _
  rw [sysMunmap_mem hsch.current virt size]
  exact hkept

/-- A sparing step keeps the kernel mapped in every address space. -/
theorem SparesKernel.step (hs : Safe use fl x.kernel) (hsch : Scheduled x.kernel c)
    (hlow : ∀ va, KernelAddress cfg own va → va < 2 ^ 30)
    (hok : i.request.isStore = false → SparesKernel cfg own x.kernel c i.request)
    (hp : ∀ j < x.kernel.numTasks,
      KernelMapped cfg own x.kernel.machine.mem (x.kernel.tasks j).pml4Phys)
    (heffect : SpaceEffect x.kernel c use' y.kernel i.request) (h : step x i = some y) :
    ∀ j < y.kernel.numTasks,
      KernelMapped cfg own y.kernel.machine.mem (y.kernel.tasks j).pml4Phys := by
  -- a change in the caller's address space, seen from an old root
  have hkeep {changed : ℕ → Prop} (hch : SpaceChange changed x.kernel c y.kernel)
      (hn : ∀ va, KernelAddress cfg own va → ¬ changed va) :
      ∀ j < y.kernel.numTasks,
        KernelMapped cfg own y.kernel.machine.mem (y.kernel.tasks j).pml4Phys := by
    intro j hj
    obtain ⟨o, ho, hroot⟩ := hch.roots j hj
    rw [hroot]
    exact (hp o ho).congr fun va hva => hch.translation ho fun hc => hn va hva hc.2
  generalize hq : i.request = q at hok heffect
  cases heffect with
  | same hch => exact hkeep hch fun _ _ => id
  | mapped hch _ _ => exact hkeep hch fun va hva => (hok rfl).maps hva
  | unmapped hch _ =>
    intro j hj
    obtain ⟨o, ho, hroot⟩ := hch.roots j hj
    rw [hroot]
    refine (hp o ho).congr fun va hva => ?_
    by_cases hsame : (x.kernel.tasks o).pml4Phys = (x.kernel.tasks c).pml4Phys
    · rw [hsame]
      exact munmap_spares hs hsch hq (fun v hv => hok rfl v hv va hva) h
    · exact hch.translation ho fun hc => hsame hc.1
  | reflagged hch _ =>
    refine hkeep hch fun va hva => ?_
    rintro ⟨v, hv, htrail⟩
    exact hok rfl v hv va hva htrail
  | spawned hw hr =>
    intro j hj
    rcases hr j hj with ⟨o, ho, hroot⟩ | ⟨hroot, hn, -⟩
    · rw [hroot]
      refine (hp o ho).congr fun va _ => ?_
      simp only [translation, hw _ access_present o ho va, hw _ access_writable o ho va,
        hw _ access_userOpen o ho va]
    · rw [hroot]
      exact hn.kernelMapped hlow (hok rfl)

end Step

section Runs

variable {cfg : BootConfig} {own : ℕ → Prop} {x0 y : System} (hg : GoodBoot cfg)
  (hk : kmain cfg = some x0) (hb : SparingBoot cfg own)
include hg hk hb

/-- The first task finds the kernel's pages mapped. -/
theorem kmain_kernelMapped : ∀ i < x0.kernel.numTasks,
    KernelMapped cfg own x0.kernel.machine.mem (x0.kernel.tasks i).pml4Phys := by
  obtain ⟨use, fl, -, hspace, -⟩ := kmain_spaces hg hk
  intro i hi
  obtain ⟨hroot, hn, -⟩ := hspace i hi
  rw [hroot]
  exact hn.kernelMapped hb.low hb.spared

theorem reach_kernelMapped {ok : System → Input → Prop}
    (hok : ∀ x i, ok x i → SoundSparing cfg own x i) (hy : Reach step ok x0 y) :
    ∀ i < y.kernel.numTasks,
      KernelMapped cfg own y.kernel.machine.mem (y.kernel.tasks i).pml4Phys := by
  obtain ⟨use, fl, hs⟩ := kmain_safe hg hk
  obtain ⟨-, -, -, hp⟩ := reach_safe_invariant (P := fun _ k => ∀ i < k.numTasks,
      KernelMapped cfg own k.machine.mem (k.tasks i).pml4Phys) hk
    ⟨use, fl, hs, kmain_kernelMapped hg hk hb⟩
    (fun x i c _ _ hc _ _ h => (hok x i h).1 c hc.current)
    (fun x i y c _ _ _ _ hc hs hp h hstep _ _ heffect =>
      SparesKernel.step hs hc hb.low (fun _ => ((hok x i h).2 c hc.current).1) hp heffect hstep) hy
  exact hp

end Runs

/-- In every run whose requests spare the kernel's pages these stay present at their own addresses
and closed to user mode, in the address space of every task. -/
theorem kernel_stays_mapped {cfg : BootConfig} {own : ℕ → Prop} {x0 y : System} (hg : GoodBoot cfg)
    (hk : kmain cfg = some x0) (hb : SparingBoot cfg own)
    (hy : Reach step (SoundSparing cfg own) x0 y) :
    ∀ i < y.kernel.numTasks,
      KernelMapped cfg own y.kernel.machine.mem (y.kernel.tasks i).pml4Phys :=
  reach_kernelMapped hg hk hb (fun _ _ h => h) hy

section Sample

/-- `munmap` by a task that runs alone. -/
private theorem step_munmap {x : System} {r0 : Registers} (r : Registers) {virt size : ℕ}
    (hp : x.phase = .user r0) (hn : x.kernel.numTasks = 1) (hc : x.kernel.currentTask = some 0)
    (hr : r.intNo = 0x80) (hcall : r.syscall = .munmap virt size) :
    ∃ y, step x (.trap quietPorts r) = some y ∧ y.kernel = (sysMunmap x.kernel virt size).2 := by
  have hk : syscallHandler x.kernel quietPorts r.syscall =
      some (returnInt (sysMunmap x.kernel virt size)) := by
    rw [hcall]
    rfl
  have hnum : (sysMunmap x.kernel virt size).2.numTasks = 1 := by
    simp only [sysMunmap, hc, hn]
  exact ⟨_, step_alone hp hr hk hnum.le, rfl⟩

/-- All usable pages of the sample boot and everything below. -/
def samplePages (g : ℕ) : Prop := g < 0x150000

theorem sample_kernel_low {va : ℕ} (hva : KernelAddress (sampleConfig sampleMap) samplePages va) :
    va < 0x400000 := by
  rcases hva with h | h | ⟨g, hg, -, h⟩
  · omega
  · change va / 4096 * 4096 < 0x110000 at h
    omega
  · unfold samplePages at hg
    omega

theorem sample_sparingBoot : SparingBoot (sampleConfig sampleMap) samplePages where
  low va hva := (sample_kernel_low hva).trans (by decide)
  spared va hva := sample_boot_spares (sample_kernel_low hva)
  stack g hg := sample_usable g (List.mem_of_getLast? hg)
  taken g hg := .inl (sample_usable g hg)

/-- The free pages after the sample boot. -/
theorem sample_free {x : System} {use : ℕ → Use} {fl : List ℕ}
    (hk : kmain (sampleConfig sampleMap) = some x) (hs : Safe use fl x.kernel) {g : ℕ}
    (hg : g ∈ fl) : samplePages g := by
  obtain ⟨x', r, use', fl', hk', -, -, hs', -, -, hlow, -⟩ := sample_direct
  obtain rfl := Option.some.inj (hk.symm.trans hk')
  obtain rfl := hs.owned.chain.unique hs'.owned.chain
  exact hlow g (by rw [(hs'.owned.free g).mp hg]; simp)

theorem sample_first {x : System} (hk : kmain (sampleConfig sampleMap) = some x) :
    samplePages x.kernel.machine.freeStack := by
  obtain ⟨x', r, use, fl, hk', -, -, hs, -, hlen⟩ := sample_started
  obtain rfl := Option.some.inj (hk.symm.trans hk')
  cases fl with
  | nil => exact absurd hlen (by decide)
  | cons f fl =>
    rw [hs.owned.chain.1]
    exact sample_free hk hs List.mem_cons_self

/-- `clone` maps nothing and takes the first free page. -/
theorem sparing_clone {cfg : BootConfig} {own : ℕ → Prop} {x : System}
    (hf : own x.kernel.machine.freeStack) :
    Sparing cfg own x (.trap quietPorts (.call 21 0 0 0 0)) := by
  intro c _
  refine ⟨fun va _ => not_touchedBy_nil va, fun p hp => ?_⟩
  change p ∈ (if maxTasks ≤ x.kernel.numTasks then [] else allocCalls [] x.kernel.machine) at hp
  unfold allocCalls at hp
  split at hp
  · cases hp
  · split at hp
    · cases hp
    · obtain rfl := List.mem_singleton.mp hp
      exact ⟨hf, fun va _ _ => not_touchedBy_nil va⟩

/-- A page of the identity map above the kernel is taken away, and the kernel stays. -/
theorem kernel_stays_mapped_sample : ∃ x0 y, kmain (sampleConfig sampleMap) = some x0 ∧
    Reach step (SoundSparing (sampleConfig sampleMap) samplePages) x0 y ∧ y.kernel.numTasks = 1 ∧
    (translation y.kernel.machine.mem (y.kernel.tasks 0).pml4Phys 0x800000).target = none ∧
    ∀ i < y.kernel.numTasks,
      KernelMapped (sampleConfig sampleMap) samplePages y.kernel.machine.mem
        (y.kernel.tasks i).pml4Phys := by
  obtain ⟨x, r, use, fl, hk, hp, ht, hs, -⟩ := sample_started
  have hc : x.kernel.currentTask = some 0 := congrArg TaskTable.current ht
  have hn : x.kernel.numTasks = 1 := congrArg TaskTable.num ht
  have hroot := (hs.owned.page _ (by rw [hs.root 0 (by omega)]; simp)).1
  obtain ⟨y, hstep, hy⟩ := step_munmap (.call 12 0x800000 4096 0 0) hp hn hc rfl
    (show Registers.syscall _ = .munmap 0x800000 4096 from rfl)
  have hspare : SoundSparing (sampleConfig sampleMap) samplePages x
      (.trap quietPorts (.call 12 0x800000 4096 0 0)) := by
    refine ⟨fun _ _ => trivial, fun d _ => ⟨fun v hv va hva hshare => ?_, fun p hp => ?_⟩⟩
    rotate_left
    · cases hp
    have hregion : trail va 3 = trail v 3 :=
      hshare.elim (fun h4 => (trail_last h4).1) fun h3 => h3.1
    rw [trail_three_iff] at hregion
    obtain ⟨h1, -, h2⟩ := mem_pageCursor hv
    have hstart : rangeStart 0x800000 = 0x800000 := by decide
    have hend : rangeEnd 0x800000 4096 = 0x801000 := by simp [rangeEnd]
    have hlow := sample_kernel_low hva
    change rangeStart 0x800000 ≤ v at h1
    change v < rangeEnd 0x800000 4096 at h2
    omega
  have hrun : Reach step (SoundSparing (sampleConfig sampleMap) samplePages) x y :=
    .tail .refl hspare hstep
  have hgone := sysMunmap_gone hc hroot (by decide : 0x800000 + 4096 + 4095 < 2 ^ 64)
    (show InRange 0x800000 4096 0x800000 from ⟨by decide, by decide⟩)
  refine ⟨x, y, hk, hrun, ?_, ?_,
    kernel_stays_mapped sample_bootable.goodBoot hk sample_sparingBoot hrun⟩
  · rw [hy]
    simp only [sysMunmap, hc, hn]
  · rw [hy]
    simpa only [sysMunmap, hc] using hgone

/-- The first task takes the first page of the kernel image out of its own page table, which the
kernel runs on. -/
theorem munmap_takes_kernel : ∃ x0 y, kmain (sampleConfig sampleMap) = some x0 ∧
    step x0 (.trap quietPorts (.call 12 0x100000 4096 0 0)) = some y ∧
    KernelMapped (sampleConfig sampleMap) samplePages x0.kernel.machine.mem
      (x0.kernel.tasks 0).pml4Phys ∧
    (y.kernel.tasks 0).pml4Phys = y.kernel.machine.pagingRoot ∧
    (translation y.kernel.machine.mem (y.kernel.tasks 0).pml4Phys 0x100000).target = none := by
  obtain ⟨x, r, use, fl, hk, hp, ht, hs, -⟩ := sample_started
  have hc : x.kernel.currentTask = some 0 := congrArg TaskTable.current ht
  have hn : x.kernel.numTasks = 1 := congrArg TaskTable.num ht
  have hroot := (hs.owned.page _ (by rw [hs.root 0 (by omega)]; simp)).1
  have hx : Reachable x := ⟨_, x, hk, .refl⟩
  have hactive := (hx.scheduled (by rw [hp]; exact fun h => by cases h) hc).1.root
  obtain ⟨y, hstep, hy⟩ := step_munmap (.call 12 0x100000 4096 0 0) hp hn hc rfl
    (show Registers.syscall _ = .munmap 0x100000 4096 from rfl)
  have hgone := sysMunmap_gone hc hroot (by decide : 0x100000 + 4096 + 4095 < 2 ^ 64)
    (show InRange 0x100000 4096 0x100000 from ⟨by decide, by decide⟩)
  refine ⟨x, y, hk, hstep, kmain_kernelMapped sample_bootable.goodBoot hk sample_sparingBoot 0
    (by omega), ?_, ?_⟩
  · rw [hy]
    simp only [sysMunmap, hc, underRoot, pagingSwitch, hactive]
  · rw [hy]
    simpa only [sysMunmap, hc] using hgone

/-- A thread whose stack is of the set ends. -/
theorem sparing_exit {cfg : BootConfig} {own : ℕ → Prop} {x : System} {c : ℕ}
    (hc : x.kernel.currentTask = some c) (ht : (x.kernel.tasks c).IsThread)
    (hown : own (x.kernel.tasks c).stackPhys) :
    Sparing cfg own x (.trap quietPorts (.call 0 0 0 0 0)) := by
  intro d hd
  obtain rfl := Option.some.inj (hc.symm.trans hd)
  refine ⟨fun va _ => not_touchedBy_nil va, fun p hp => ?_⟩
  change p ∈ taskCalls x.kernel.machine (x.kernel.tasks c) at hp
  rw [taskCalls_thread ht] at hp
  split at hp
  · obtain rfl := List.mem_singleton.mp hp
    exact ⟨hown, fun va _ _ => not_touchedBy_nil va⟩
  · cases hp

/-- In every run of sound steps that spare the kernel's pages the free list is finite and has no
page twice, and the allocator finds its pages at their own addresses. -/
theorem freeList_nodup {cfg : BootConfig} {own : ℕ → Prop} {x0 y : System} (hg : GoodBoot cfg)
    (hk : kmain cfg = some x0) (hb : SparingBoot cfg own)
    (hy : Reach step (SoundSparing cfg own) x0 y) :
    (∃ fl, Chain (load64 y.kernel.machine.mem) 0 y.kernel.machine.freeStack fl ∧ fl.Nodup) ∧
      ∀ i < y.kernel.numTasks,
        KernelMapped cfg own y.kernel.machine.mem (y.kernel.tasks i).pml4Phys := by
  obtain ⟨use, fl, hs⟩ := reach_safe hg hk (fun _ _ h => h.1) hy
  exact ⟨⟨fl, hs.owned.chain, hs.owned.nodup⟩,
    reach_kernelMapped hg hk hb (fun _ _ h => h) hy⟩

theorem freeList_nodup_sample : ∃ x0 y, kmain (sampleConfig sampleMap) = some x0 ∧
    Reach step (SoundSparing (sampleConfig sampleMap) samplePages) x0 y ∧ y.kernel.numTasks = 2 ∧
    ∃ fl, Chain (load64 y.kernel.machine.mem) 0 y.kernel.machine.freeStack fl ∧ fl.Nodup := by
  obtain ⟨x, h, f, y, r, use, fl, hk, -, hstep, hy, hty, -⟩ := sample_cloned
  have hok : SoundSparing (sampleConfig sampleMap) samplePages x
      (.trap quietPorts (.call 21 0 0 0 0)) :=
    ⟨fun _ _ => trivial, sparing_clone (sample_first hk)⟩
  have hrun := Reach.tail .refl hok hstep
  have hn : y.kernel.numTasks = 2 := congrArg TaskTable.num (Option.some.inj hty).symm
  exact ⟨x, y, hk, hrun, hn,
    (freeList_nodup sample_bootable.goodBoot hk sample_sparingBoot hrun).1⟩

/-- The first word of a saved frame is `r15`. -/
private theorem load_saveFrame (s : Kernel) (c : ℕ) (r : Registers) :
    load64 (saveFrame s c r).machine.mem (s.tasks c).stackPhys = r.r15.toNat := by
  have h : load64 (storeFrame s.machine.mem (s.tasks c).stackPhys r)
      ((s.tasks c).stackPhys + 8 * 0) =
      r.r15.toNat % 2 ^ 64 := load64_storeWords (by decide)
  rw [Nat.mod_eq_of_lt r.r15.toNat_lt] at h
  exact h

/-- A thread that kills itself has its frame saved in the page just freed. With the address of
that page in `r15` the page links to itself. -/
theorem own_kill_loops_freeList : ∃ y, Reachable y ∧ ¬ ∃ fl,
    Chain (load64 y.kernel.machine.mem) 0 y.kernel.machine.freeStack fl := by
  obtain ⟨x, h, f, y, r, use, fl, hk, ht, hstep, hy, hty, hs, -, hf, hlen, hsame⟩ := sample_cloned
  have hty := (Option.some.inj hty).symm
  have hc : y.kernel.currentTask = some 1 := congrArg TaskTable.current hty
  have hn : y.kernel.numTasks = 2 := congrArg TaskTable.num hty
  have hn0 : x.kernel.numTasks = 1 := congrArg TaskTable.num ht
  have hfind : y.kernel.findLive 8 = some 1 := by
    rw [← table_findLive, hty]
    rfl
  obtain ⟨hstack, hcode⟩ : (y.kernel.tasks 1).stackPhys = f ∧ (y.kernel.tasks 1).codePages = 0 := by
    obtain ⟨st, rsp, he⟩ := hsame.tasks 1
    rw [he]
    simp [addTask, hn0, newTask, ipcInitTask]
  have hflt : f < 2 ^ 64 := by
    have hu := (hs.stack 1 (by omega) (.inr hc)).resolve_left (by rwa [hstack])
    rw [hstack] at hu
    exact (hs.owned.page f (by simp [hu])).2.2
  let r : Registers := { Registers.call 13 8 0 0 0 with r15 := .ofNat f }
  let k : Kernel := { y.kernel.setState 1 .exited with machine := pmmFreePage y.kernel.machine f }
  have hkill : sysKill y.kernel 8 = (0, k) := by
    simp only [sysKill, hfind, freeUserMemory_thread (.inr hcode), freeStackPage, hstack, if_pos hf,
      Kernel.setState_machine, k]
  have hcall : syscallHandler y.kernel quietPorts r.syscall = some (.done 0 k) :=
    congrArg (fun p => some (returnInt p)) hkill
  have hz := step_syscall hy rfl hcall
  have hnk : 1 < k.numTasks := by
    change 1 < y.kernel.numTasks
    omega
  rw [afterSyscall_eq hnk hc] at hz
  refine ⟨_, ⟨_, x, hk, .tail (.tail .refl trivial hstep) trivial hz⟩, ?_⟩
  rw [dispatch_kernel, dispatched_mem, dispatched_freeStack, yieldCaller_machine]
  rintro ⟨l, hl⟩
  have hload := load_saveFrame k 1 { r with rax := .ofNat 0 }
  have hkstack : (k.tasks 1).stackPhys = f := by
    simpa only [k, Kernel.setState_apply] using hstack
  rw [hkstack, show r.r15.toNat = f from UInt64.toNat_ofNat_of_lt' hflt] at hload
  exact not_chain_of_selfLink hf hload hl

end Sample

end Mukrn
