import Mukrn.Memory.Load

/-! Boot: `pmm_init` threads the usable pages, and the first task is created in a safe kernel. -/
namespace Mukrn
open ByteMemory PageTable

/-- The pages of one entry that `pmm_init` pushes. -/
def entryPages (kernelEnd : ℕ) (e : E820Entry) : List ℕ :=
  match pmmRange e with
  | none => []
  | some (start, finish) =>
    (pageCursor start finish).filter fun addr => !pmmReserved kernelEnd addr

/-- All pages that `pmm_init` pushes, in order. -/
def usablePages (kernelEnd : ℕ) (entries : List E820Entry) : List ℕ :=
  entries.flatMap (entryPages kernelEnd)

theorem pmmFreePages_append (h : Machine) (l l' : List ℕ) :
    pmmFreePages h (l ++ l') = pmmFreePages (pmmFreePages h l) l' := List.foldl_append

theorem pmmInit_eq (kernelEnd : ℕ) (entries : List E820Entry) (h : Machine) :
    pmmInit kernelEnd entries h = pmmFreePages h (usablePages kernelEnd entries) := by
  induction entries generalizing h with
  | nil => rfl
  | cons e entries ih =>
    have he : pmmInitEntry kernelEnd h e = pmmFreePages h (entryPages kernelEnd e) := by
      unfold pmmInitEntry entryPages
      cases pmmRange e <;> rfl
    have hstep : pmmInit kernelEnd (e :: entries) h =
        pmmInit kernelEnd entries (pmmInitEntry kernelEnd h e) := List.foldl_cons ..
    have hpages : usablePages kernelEnd (e :: entries) =
        entryPages kernelEnd e ++ usablePages kernelEnd entries := List.flatMap_cons
    rw [hstep, ih, he, hpages, pmmFreePages_append]

/-- The firmware reports usable entries that do not overlap and do not reach the last page. -/
structure GoodMap (entries : List E820Entry) : Prop where
  bounded : ∀ e ∈ entries, e.type = 1 → e.base + e.len < 2 ^ 64 - 4096
  disjoint : entries.Pairwise fun e e' => e.type = 1 → e'.type = 1 →
    e.base + e.len ≤ e'.base ∨ e'.base + e'.len ≤ e.base

/-- The bounds of a usable entry before and after rounding to pages. -/
theorem pmmRange_spec {e : E820Entry} {start finish : ℕ} (h : pmmRange e = some (start, finish)) :
    ∃ low, low = max 0x100000 e.base ∧ e.type = 1 ∧ low < (e.base + e.len) % 2 ^ 64 ∧
      start = (low + 4095) % 2 ^ 64 / 4096 * 4096 ∧
      finish = (e.base + e.len) % 2 ^ 64 / 4096 * 4096 := by
  have hlow : (if e.base < 0x100000 then 0x100000 else e.base) = max 0x100000 e.base := by
    split <;> omega
  simp only [pmmRange, hlow] at h
  by_cases hx : e.type ≠ 1 ∨ (e.base + e.len) % 2 ^ 64 ≤ max 0x100000 e.base
  · rw [if_pos hx] at h
    cases h
  · rw [if_neg hx] at h
    obtain ⟨rfl, rfl⟩ := Prod.mk.inj (Option.some.inj h)
    obtain ⟨ht, hfin⟩ := not_or.mp hx
    exact ⟨_, rfl, not_not.mp ht, by omega, rfl, rfl⟩

/-- A pushed page lies inside its entry, above the first megabyte. -/
theorem mem_entryPages {kernelEnd a : ℕ} {e : E820Entry}
    (hb : e.type = 1 → e.base + e.len < 2 ^ 64 - 4096)
    (ha : a ∈ entryPages kernelEnd e) :
    e.type = 1 ∧ a % 4096 = 0 ∧ 0x100000 ≤ a ∧ e.base ≤ a ∧ a + 4096 ≤ e.base + e.len := by
  unfold entryPages at ha
  split at ha
  · cases ha
  next start finish hr =>
    obtain ⟨hv, -⟩ := List.mem_filter.mp ha
    obtain ⟨hge, hmod, hlt⟩ := mem_pageCursor hv
    obtain ⟨low, hlow, ht, hfin, hs, hf⟩ := pmmRange_spec hr
    have hb := hb ht
    omega

theorem entryPages_nodup (kernelEnd : ℕ) (e : E820Entry) : (entryPages kernelEnd e).Nodup := by
  unfold entryPages
  split
  · exact List.nodup_nil
  · exact ((pageCursor_pairwise _ _).imp fun h => Nat.ne_of_lt h).filter _

theorem usablePages_spec (kernelEnd : ℕ) {entries : List E820Entry} (hg : GoodMap entries) :
    (usablePages kernelEnd entries).Nodup ∧
      ∀ a ∈ usablePages kernelEnd entries, a % 4096 = 0 ∧ 0x100000 ≤ a ∧ a < 2 ^ 64 := by
  refine ⟨List.nodup_flatMap.mpr ⟨fun e _ => entryPages_nodup kernelEnd e, ?_⟩, fun a ha => ?_⟩
  · refine (hg.disjoint.imp_of_mem ?_)
    intro e e' he he' hdisj a ha ha'
    obtain ⟨ht, -, -, hlo, hhi⟩ := mem_entryPages (hg.bounded e he) ha
    obtain ⟨ht', -, -, hlo', hhi'⟩ := mem_entryPages (hg.bounded e' he') ha'
    have hd := hdisj ht ht'
    omega
  · obtain ⟨e, he, ha⟩ := List.mem_flatMap.mp ha
    obtain ⟨ht, hal, hlow, -, hend⟩ := mem_entryPages (hg.bounded e he) ha
    have hb := hg.bounded e he ht
    exact ⟨hal, hlow, by omega⟩

/-- The uses that `setup_paging` and the memory map stand for. -/
def bootUse (pages : List ℕ) (f : ℕ) : Use :=
  if f = 0x1000 ∨ f = 0x2000 ∨ f = 0x3000 then .template else if f ∈ pages then .data else .none

theorem setupPaging_template (m : Mem) : Template (setupPaging m) := by
  have hword (m : Mem) (b : ℕ) (hb : b + 8 ≤ 0x3000) :
      load64 (storeWords m 0x3000 512 fun i => 0x83 + 0x200000 * i) b = load64 m b :=
    load_storeWords_outside (.inl hb)
  refine ⟨?_, ?_, fun i hi => ?_⟩
  · rw [entry, setupPaging, hword _ _ (by decide)]
    exact (load_store_outside (.inl (by decide))).trans (load64_store64 (by decide))
  · rw [entry, setupPaging, hword _ _ (by decide)]
    exact load64_store64 (by decide)
  · rw [entry, setupPaging, load64_storeWords hi]
    omega

theorem bootUse_owned {pages : List ℕ} (m : Mem) (root : ℕ)
    (hp : ∀ a ∈ pages, a % 4096 = 0 ∧ 0x100000 ≤ a ∧ a < 2 ^ 64) :
    Owned (bootUse pages) [] ⟨setupPaging m, 0, root⟩ := by
  have hshape (f : ℕ) : shape (bootUse pages) f = none := by
    unfold shape bootUse
    split
    next r p h =>
      split at h
      · cases h
      · split at h <;> cases h
    · rfl
  refine ⟨fun f hf => ?_, rfl, List.nodup_nil, fun f => ?_, ⟨?_, ?_, ?_⟩, setupPaging_template m,
    fun f => ?_⟩
  · unfold bootUse at hf
    split at hf
    · omega
    · split at hf
      next hm =>
        have h := hp f hm
        omega
      · exact absurd rfl hf
  · simp only [List.not_mem_nil, false_iff, bootUse]
    split
    · exact nofun
    · split <;> exact nofun
  · intro t r p h
    rw [hshape] at h
    cases h
  · intro t r h
    rw [hshape] at h
    cases h
  · intro t r p h
    rw [hshape] at h
    cases h
  · unfold bootUse
    by_cases hf : f = 0x1000 ∨ f = 0x2000 ∨ f = 0x3000
    · simp [hf]
    · rw [if_neg hf]
      simp only [hf, false_iff]
      split <;> exact nofun

/-- After `pmm_init` exactly the usable pages are free, the last one on top. -/
theorem pmmInit_owned (kernelEnd root : ℕ) {entries : List E820Entry} (hg : GoodMap entries)
    (m : Mem) :
    Owned (freed (bootUse (usablePages kernelEnd entries)) (usablePages kernelEnd entries))
      (usablePages kernelEnd entries).reverse
      (pmmInit kernelEnd entries ⟨setupPaging m, 0, root⟩) := by
  obtain ⟨hnd, hp⟩ := usablePages_spec kernelEnd hg
  have hdata (f : ℕ) (hf : f ∈ usablePages kernelEnd entries) :
      bootUse (usablePages kernelEnd entries) f = .data := by
    have h := hp f hf
    rw [bootUse, if_neg (by omega), if_pos hf]
  rw [pmmInit_eq]
  have hfree := pmmFreePages_owned (bootUse_owned m root hp) hdata hnd
  rwa [List.append_nil] at hfree

/-- `kmain` finds the allocator owned; the page of the interrupt stack is taken. -/
theorem bootMachine_owned {cfg : BootConfig} (hg : GoodMap cfg.e820) :
    ∃ use, Owned use (usablePages cfg.kernelEnd cfg.e820).reverse.tail (bootMachine cfg) ∧
      ∀ g, 0x4000 ≤ g → g ∉ usablePages cfg.kernelEnd cfg.e820 → use g = .none := by
  have ho := pmmInit_owned cfg.kernelEnd kernelPml4Template hg cfg.mem
  have hnone (g : ℕ) (h1 : 0x4000 ≤ g) (h2 : g ∉ usablePages cfg.kernelEnd cfg.e820) :
      freed (bootUse (usablePages cfg.kernelEnd cfg.e820)) (usablePages cfg.kernelEnd cfg.e820) g =
        .none := by
    rw [freed, if_neg h2, bootUse, if_neg (by omega), if_neg h2]
  unfold bootMachine gdtSetupTss
  cases hfl : (usablePages cfg.kernelEnd cfg.e820).reverse with
  | nil =>
    rw [hfl] at ho
    rw [ho.alloc_nil]
    exact ⟨_, ho, hnone⟩
  | cons f fl =>
    rw [hfl] at ho
    rw [ho.alloc_eq]
    refine ⟨_, ho.alloc (u := .none) (by simp) (by simp) (by simp), fun g h1 h2 => ?_⟩
    rw [Function.update_apply]
    split
    · rfl
    · exact hnone g h1 h2

/-- A boot configuration whose memory map is sound and whose init program is an ELF image that
can be loaded. -/
structure GoodBoot (cfg : BootConfig) : Prop where
  map : GoodMap cfg.e820
  size : 4 ≤ cfg.initSize
  magic : ∀ w, readUser32 (bootMachine cfg) cfg.initStart = some w → w = elfMagic
  image : GoodImage (initialKernel (bootMachine cfg)) cfg.initStart cfg.initSize

theorem schedulerStart_safe {use : ℕ → Use} {fl : List ℕ} {s : Kernel} (hs : Safe use fl s)
    (hl : 0 < s.numTasks → s.live 0) :
    Safe use fl (schedulerStart s).kernel := by
  unfold schedulerStart
  split
  · exact hs
  next h0 =>
    have hlive := hl (Nat.pos_of_ne_zero h0)
    have hk := KeepsSlots.setState .running (.inl hlive : s.live 0 ∨ s.currentTask = some 0)
    refine ⟨hs.owned.switch _, fun i hi hli => ?_, hs.slots hk rfl |>.root⟩
    refine (hs.slots hk rfl).stack i hi ?_
    rcases hli with hli | hli
    · exact .inl hli
    · obtain rfl := Option.some.inj hli
      exact .inl (by simp [Kernel.live, Kernel.setState, Kernel.setTask])

/-- The first task is ready when the scheduler starts. -/
theorem Creation.live {m : Machine} {res : ℤ × Kernel} (h : Creation (initialKernel m) 1 res) :
    0 < res.2.numTasks → res.2.live 0 := by
  cases h with
  | failed m => exact fun h => absurd h (Nat.lt_irrefl 0)
  | @added m reuse kstack pml4 la cp hn hr hk hp =>
    have hre : reuse = none := hr.elim id id
    subst hre
    exact fun _ => rfl

/-- The first task has a kernel stack and a root. -/
theorem Creation.pages {m : Machine} {res : ℤ × Kernel} (h : Creation (initialKernel m) 1 res)
    (hn : 0 < res.2.numTasks) : (res.2.tasks 0).stackPhys ≠ 0 ∧ (res.2.tasks 0).pml4Phys ≠ 0 := by
  cases h with
  | failed m => exact absurd hn (Nat.lt_irrefl 0)
  | @added m reuse kstack pml4 la cp hn hr hk hp =>
    have hre : reuse = none := hr.elim id id
    subst hre
    exact ⟨hk, hp⟩

theorem Creation.numTasks_le {m : Machine} {res : ℤ × Kernel}
    (h : Creation (initialKernel m) 1 res) :
    res.2.numTasks ≤ 1 := by
  cases h with
  | failed m => exact Nat.zero_le 1
  | @added m reuse kstack pml4 la cp hn hr hk hp =>
    have hre : reuse = none := hr.elim id id
    subst hre
    exact Nat.le_refl 1

/-- The pages mapped for the init program and the root of its address space. -/
def bootMaps (cfg : BootConfig) : ℕ × List (ℕ × ℕ) :=
  elfMaps (initialKernel (bootMachine cfg)) cfg.initStart cfg.initSize 1

@[simp] theorem schedulerStart_mem (s : Kernel) :
    (schedulerStart s).kernel.machine.mem = s.machine.mem := by
  unfold schedulerStart
  split <;> rfl

@[simp] theorem schedulerStart_numTasks (s : Kernel) :
    (schedulerStart s).kernel.numTasks = s.numTasks := by
  unfold schedulerStart
  split <;> rfl

theorem schedulerStart_pml4Phys (s : Kernel) (i : ℕ) :
    ((schedulerStart s).kernel.tasks i).pml4Phys = (s.tasks i).pml4Phys := by
  unfold schedulerStart
  split
  · rfl
  · by_cases hi : i = 0
    · subst hi
      simp [Kernel.setState, Kernel.setTask]
    · simp [Kernel.setState, Kernel.setTask, hi]

/-- The kernel starts safe, and the only address space is that of the init program. What the
allocator was not given has no use. -/
theorem kmain_spaces {cfg : BootConfig} {x : System} (hg : GoodBoot cfg)
    (hk : kmain cfg = some x) : ∃ use fl, Safe use fl x.kernel ∧ (∀ i < x.kernel.numTasks,
      (x.kernel.tasks i).pml4Phys = (bootMaps cfg).1 ∧
      NewSpace (bootMaps cfg).2 x.kernel.machine.mem (bootMaps cfg).1 ∧
      LowOpen x.kernel.machine.mem (bootMaps cfg).1 ∧
      ∀ p ∈ (bootMaps cfg).2, use p.2 = .data) ∧
    ∀ g, 0x4000 ≤ g → g ∉ usablePages cfg.kernelEnd cfg.e820 → use g = .none := by
  obtain ⟨res, hc, rfl⟩ := Option.map_eq_some_iff.mp hk
  obtain ⟨use, ho, hnone⟩ := bootMachine_owned hg.map
  have hs : Safe use _ (initialKernel (bootMachine cfg)) :=
    ⟨ho, fun i hi => absurd hi (Nat.not_lt_zero i), fun i hi => absurd hi (Nat.not_lt_zero i)⟩
  unfold taskCreate at hc
  rw [if_pos hg.size] at hc
  obtain ⟨w, hw, hc⟩ := Option.bind_eq_some_iff.mp hc
  rw [if_pos (hg.magic w hw)] at hc
  obtain ⟨use', fl', hs', hkeep, hadd, hopens⟩ := createElf_safe hs rfl hg.image hc
  refine ⟨use', fl', schedulerStart_safe hs' (createElf_creation hc).1.live, fun i hi => ?_,
    fun g h1 h2 => hkeep.idle g (hnone g h1 h2)⟩
  rw [schedulerStart_pml4Phys, schedulerStart_mem]
  rw [schedulerStart_numTasks] at hi
  cases hadd with
  | refused h => exact absurd hi (Nat.not_lt_zero i)
  | added hn hdata =>
    obtain rfl : i = 0 := Nat.lt_one_iff.mp hi
    exact ⟨rfl, hn, hopens 0 (Nat.zero_le _) hi, hdata⟩

theorem kmain_safe {cfg : BootConfig} {x : System} (hg : GoodBoot cfg) (hk : kmain cfg = some x) :
    ∃ use fl, Safe use fl x.kernel := by
  obtain ⟨use, fl, hs, -⟩ := kmain_spaces hg hk
  exact ⟨use, fl, hs⟩

end Mukrn
