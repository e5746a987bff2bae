import Mukrn.Memory.Active
import Mukrn.Memory.Boot
import Mukrn.Memory.Requests
import Mukrn.Table.Simulation

/-! Configurations that boot: the init program is copied, loaded and started, and it can create
threads. -/
namespace Mukrn
open ByteMemory PageTable

/-- The init program lies in the kernel image, every copy of it is an ELF image with at most `n`
pages to load, and there is memory for it. -/
structure Bootable (cfg : BootConfig) (n : ℕ) : Prop where
  map : GoodMap cfg.e820
  large : 64 ≤ cfg.initSize
  small : cfg.initSize ≤ 4096
  start : 0x100000 ≤ cfg.initStart
  finish : cfg.initStart + cfg.initSize ≤ cfg.kernelEnd
  kernel : cfg.kernelEnd ≤ 2 ^ 30
  magic : load cfg.mem cfg.initStart 4 = elfMagic
  image : ∀ (m : Mem) (buf : ℕ), buf < 2 ^ 64 - 4096 →
    (∀ i < cfg.initSize, m (buf + i) = cfg.mem (cfg.initStart + i)) →
    Loadable m buf ∧ imagePages m buf ≤ n
  room : 22 + 4 * n ≤ (usablePages cfg.kernelEnd cfg.e820).length

theorem setupPaging_outside {m : Mem} {a : ℕ} (ha : 0x4000 ≤ a) : setupPaging m a = m a := by
  unfold setupPaging
  simp only [store64, store]
  rw [storeWords_outside (by omega), fill_outside (by omega), fill_outside (by omega),
    fill_outside (by omega)]

section Machine

variable {cfg : BootConfig} {a : ℕ}

@[simp] theorem bootMachine_root (cfg : BootConfig) :
    (bootMachine cfg).pagingRoot = kernelPml4Template := by
  simp [bootMachine, gdtSetupTss, pmmInit_eq]

/-- Boot leaves memory alone apart from the boot tables and the usable pages. -/
theorem bootMachine_mem (hg : GoodMap cfg.e820) (ha : 0x4000 ≤ a)
    (hp : a / 4096 * 4096 ∉ usablePages cfg.kernelEnd cfg.e820) :
    (bootMachine cfg).mem a = cfg.mem a := by
  have hpages := (usablePages_spec cfg.kernelEnd hg).2
  have ho := pmmInit_owned cfg.kernelEnd kernelPml4Template hg cfg.mem
  have hinit : (pmmInit cfg.kernelEnd cfg.e820 ⟨setupPaging cfg.mem, 0, kernelPml4Template⟩).mem a =
      cfg.mem a := by
    rw [pmmInit_eq, pmmFreePages_sameOutside _ (fun f hf => (hpages f hf).1) a hp]
    exact setupPaging_outside ha
  unfold bootMachine gdtSetupTss
  generalize pmmInit cfg.kernelEnd cfg.e820 ⟨setupPaging cfg.mem, 0, kernelPml4Template⟩ = h
    at ho hinit ⊢
  cases hfl : (usablePages cfg.kernelEnd cfg.e820).reverse with
  | nil =>
    rw [hfl] at ho
    rw [ho.alloc_nil, hinit]
  | cons f fl =>
    rw [hfl] at ho
    have hf : f ∈ usablePages cfg.kernelEnd cfg.e820 := by
      rw [← List.mem_reverse, hfl]
      exact List.mem_cons_self
    have hf0 := (hpages f hf).1
    have hne : a / 4096 * 4096 ≠ f := fun he => hp (he ▸ hf)
    rw [ho.alloc_eq]
    exact (h.take_outside (by omega)).trans hinit

/-- No usable page holds an address of the kernel image. -/
theorem image_not_usable (h1 : 0x100000 ≤ a) (h2 : a < cfg.kernelEnd) :
    a / 4096 * 4096 ∉ usablePages cfg.kernelEnd cfg.e820 := by
  intro hm
  obtain ⟨e, -, hm⟩ := List.mem_flatMap.mp hm
  unfold entryPages at hm
  split at hm
  · cases hm
  · have hr := (List.mem_filter.mp hm).2
    simp only [pmmReserved, Bool.not_eq_true', Bool.or_eq_false_iff, Bool.and_eq_false_iff,
      decide_eq_false_iff_not] at hr
    omega

/-- Whatever a change outside the boot tables, the kernel reads the first gigabyte as it is. -/
theorem translate_boot {h : Machine} {va : ℕ} (hT : Template h.mem)
    (hr : h.pagingRoot = kernelPml4Template) (hva : va < 2 ^ 30) : translate h va = some va := by
  have hcan : canonical va := by
    unfold canonical
    simp only [Bool.or_eq_true, decide_eq_true_eq]
    exact .inl (by omega)
  rw [translate, if_pos hcan, hr, hT.walk access_present (by omega), if_pos (by decide),
    Nat.mod_eq_of_lt hva]

theorem readUser32_eq {h : Machine} {p a : ℕ}
    (hr : ∀ i < 4, translate h ((p + i) % 2 ^ 64) = some (a + i)) :
    readUser32 h p = some (load h.mem a 4) := by
  have hb (i : ℕ) (hi : i < 4) : readUser h p i = some (h.mem (a + i)) := by
    rw [readUser, hr i hi, Option.map_some]
  have hbytes : readUserBytes h p 4 = some ((List.range 4).map fun i => h.mem (a + i)) := by
    simp [readUserBytes, List.range_succ, hb]
  rw [readUser32, hbytes, Option.map_some]
  congr 1

end Machine

section Creation

variable {use : ℕ → Use} {fl : List ℕ} {h : Machine} {s : Kernel}
  {f binary src size n wantPid : ℕ}

/-- Bytes that the kernel reads at `binary`, whatever the page `f` holds. -/
structure Readable (h : Machine) (f binary src size : ℕ) : Prop where
  outside : ∀ i < size, (src + i) / 4096 * 4096 ≠ f
  read : ∀ m, SameOutside [f] h.mem m → ∀ i < size,
    translate { h with mem := m } ((binary + i) % 2 ^ 64) = some (src + i)

/-- Taking a page does not switch the address space. -/
theorem translate_take (h : Machine) (f : ℕ) (m : Mem) (va : ℕ) :
    translate { h.take f with mem := m } va = translate { h with mem := m } va := by
  simp only [translate]
  rfl

/-- A small file is staged in one page, byte by byte, when the translation of its addresses does
not depend on that page. -/
theorem Owned.staged_bytes {src : ℕ → ℕ} (ho : Owned use (f :: fl) h)
    (hout : ∀ i < size, src i / 4096 * 4096 ≠ f)
    (hread : ∀ m, SameOutside [f] h.mem m → ∀ i < size,
      translate { h with mem := m } ((binary + i) % 2 ^ 64) = some (src i))
    (hpos : 0 < size) (hsmall : size ≤ 4096) :
    ∃ h2, stagePages ((size + 4095) / 4096) h [] = (some [f], h.take f) ∧
      stageCopy binary f size 0 (h.take f) = some h2 ∧
      (∀ i < size, h2.mem (f + i) = h.mem (src i)) ∧
      Owned (Function.update use f .data) fl h2 ∧ SameOutside [f] h.mem h2.mem := by
  obtain ⟨-, hf0, hfpos, -⟩ := ho.head
  have ho1 := ho.alloc (u := .data) nofun nofun nofun
  have hfit (i : ℕ) (hi : i < size) : (f + i) / 4096 * 4096 ∈ [f] := by
    rw [List.mem_singleton]
    omega
  have hsrc (i : ℕ) (hi : i < size) : src i / 4096 * 4096 ∉ [f] := by
    rw [List.mem_singleton]
    exact hout i hi
  have htake : SameOutside [f] h.mem (h.take f).mem := .one hf0 fun a ha => h.take_outside ha
  have hstage : stagePages ((size + 4095) / 4096) h [] = (some [f], h.take f) := by
    rw [show (size + 4095) / 4096 = 1 by omega, stagePages, ho.alloc_eq]
    simp only [if_neg hfpos.ne']
    rfl
  have hstaging (g : ℕ) (hg : g ∈ [f]) : ¬ (Function.update use f Use.data g).Critical := by
    rw [List.mem_singleton.mp hg, Function.update_self]
    exact id
  have hread' (m : Mem) (hm : SameOutside [f] (h.take f).mem m) (i : ℕ) (hi : i < size) :
      translate { h.take f with mem := m } ((binary + i) % 2 ^ 64) = some (src i) := by
    rw [translate_take]
    exact hread m ((htake.trans hm).mono fun g hg => by simpa using hg) i hi
  obtain ⟨h2, hcopy, hbytes⟩ := stageCopy_reads hfit hsrc hread'
  have hcopied := stageCopy_sameOutside hfit hcopy
  refine ⟨h2, hstage, hcopy, fun i hi => ?_, ?_, (htake.trans hcopied).mono fun g hg => by
    simpa using hg⟩
  · rw [hbytes i hi, htake _ (hsrc i hi)]
  · rw [(stageCopy_spec hcopy).1]
    exact ho1.sameOutside hcopied hstaging

theorem Owned.staged (ho : Owned use (f :: fl) h) (hr : Readable h f binary src size)
    (hpos : 0 < size) (hsmall : size ≤ 4096) :
    ∃ h2, stagePages ((size + 4095) / 4096) h [] = (some [f], h.take f) ∧
      stageCopy binary f size 0 (h.take f) = some h2 ∧
      (∀ i < size, h2.mem (f + i) = h.mem (src + i)) ∧
      Owned (Function.update use f .data) fl h2 ∧ SameOutside [f] h.mem h2.mem :=
  ho.staged_bytes hr.outside hr.read hpos hsmall

/-- A small ELF file that can be read and loaded becomes a task with an address space of its own.
Pages of no use and the translations of the other address spaces are left alone. -/
theorem createElf_loads (hs : Safe use (f :: fl) s) (hr : Readable s.machine f binary src size)
    (hlarge : 64 ≤ size) (hsmall : size ≤ 4096) (hmagic : load s.machine.mem src 4 = elfMagic)
    (himage : ∀ m : Mem, (∀ i < size, m (f + i) = s.machine.mem (src + i)) →
      Loadable m f ∧ imagePages m f ≤ n) (hroom : 20 + 4 * n ≤ fl.length)
    (hslot : s.numTasks < maxTasks) (hpid : ¬ (0 < wantPid ∧ (s.findLive wantPid).isSome))
    (hreuse : findReuse s wantPid = none) :
    ∃ h' kstack root codePages m ms use' fl', createElf s binary size wantPid =
        some (addTask s h' none wantPid kstack root 0x400000 codePages) ∧
      Safe use' fl' (addTask s h' none wantPid kstack root 0x400000 codePages).2 ∧
      fl.length + 1 ≤ fl'.length + (20 + 4 * n) ∧ root ∈ fl ∧ NewSpace ms h'.mem root ∧
      (∀ i < size, m (f + i) = s.machine.mem (src + i)) ∧
      (∀ p ∈ ms, SegmentPage m f p.1 ∨ p.1 ∈ stackPages ((maxVaddr m f + 0x20000) % 2 ^ 64)) ∧
      (∀ p ∈ ms, p.2 ∈ fl) ∧ fl'.head? = some f ∧
      KeepsUnused use s.machine.mem h'.mem ∧ (∀ g, use g = .none → use' g = .none) ∧
      WalksAgree (shape use) (fun _ _ => False) s.machine.mem h'.mem ∧
      elfMaps s binary size wantPid = (root, ms) ∧ codePages = elfCodePages (maxVaddr m f) := by
  obtain ⟨h2, hstage, hcopy, hbytes, ho2, hout⟩ :=
    hs.owned.staged hr (by omega) hsmall
  obtain ⟨hload, hpages⟩ := himage h2.mem hbytes
  obtain ⟨hfree, -⟩ := hs.owned.head
  have hkeep (g : ℕ) (hg : use g ≠ .free) : Function.update use f .data g = use g := by
    have hne : g ≠ f := hs.owned.ne_head hg
    rw [Function.update_of_ne hne]
  have hs2 : Safe _ fl { s with machine := h2 } := hs.keepsUses ho2 fun g hg _ => hkeep g hg
  have hdata (g : ℕ) (hg : g ∈ [f]) : Function.update use f Use.data g = .data := by
    rw [List.mem_singleton.mp hg, Function.update_self]
  obtain ⟨res, use', fl', hres, hs', hpres, hlen, hpub, -, rest, rfl⟩ := createStaged_safe hs2 hdata
    (List.nodup_singleton f) List.mem_cons_self hload (by omega) hreuse
  have hcreate : createElf s binary size wantPid = some res := by
    rw [createElf, if_neg (by omega), hstage]
    simp only [List.headD_cons]
    rw [hcopy, Option.bind_some, hres]
  have hfout (g : ℕ) (hg : g ∈ [f]) : use g = .free := by rw [List.mem_singleton.mp hg, hfree]
  have hnone (g : ℕ) (hg : use g = .none) : Function.update use f .data g = .none := by
    rw [hkeep g (by simp [hg]), hg]
  cases hpub with
  | refused h' hr =>
    rcases hr with hr | hr | hr
    · refine absurd ?_ hr
      rw [load_copy fun i hi => hbytes i (by omega), hmagic]
    · exact absurd hr (Nat.not_le.mpr hslot)
    · exact absurd hr hpid
  | @added h' kstack root ms hm hn hg hroot hv =>
    rw [List.length_singleton] at hlen
    have hmaps : elfMaps s binary size wantPid = (root, ms) := by
      rw [elfMaps, if_neg (by omega), hstage]
      simp only [List.headD_cons]
      rw [hcopy, Option.map_some, Option.getD_some, hm]
    refine ⟨h', kstack, root, _, h2.mem, ms, use', _, hcreate, hs', by omega, hroot, hn, hbytes,
      hv, fun p hp => (hg p hp).1, rfl,
      (hout.keepsUnused fun g hg => by simp [hfout g hg]).trans hnone hpres.unused,
      fun g hg => hpres.idle g (hnone g hg),
      (hs.owned.walks_sameOutside hout (fun g hg r p => by simp [hfout g hg]) _).trans hpres.walks
        fun r hr => ?_, hmaps, rfl⟩
    have hu := shape_eq_some.mp hr
    exact shape_eq_some.mpr ((hkeep r (by simp [hu])).trans hu)

end Creation

/-- The kernel in which `kmain` creates the first task. -/
def bootKernel (cfg : BootConfig) : Kernel := initialKernel (bootMachine cfg)

namespace Bootable

variable {cfg : BootConfig} {n : ℕ}

private theorem page_lt (hb : Bootable cfg n) {f : ℕ}
    (hf : f ∈ usablePages cfg.kernelEnd cfg.e820) : f < 2 ^ 64 - 4096 := by
  obtain ⟨e, he, hf⟩ := List.mem_flatMap.mp hf
  obtain ⟨ht, -, -, -, hf⟩ := mem_entryPages (hb.map.bounded e he) hf
  have := hb.map.bounded e he ht
  omega

/-- The boot machine and its changes in other usable pages read the init program. -/
private theorem source (hb : Bootable cfg n) {h : Machine} (hT : Template h.mem)
    (hr : h.pagingRoot = kernelPml4Template) {i : ℕ} (hi : i < cfg.initSize) :
    translate h ((cfg.initStart + i) % 2 ^ 64) = some (cfg.initStart + i) := by
  have h1 := hb.finish
  have h2 := hb.kernel
  rw [Nat.mod_eq_of_lt (by omega)]
  exact translate_boot hT hr (by omega)

private theorem content (hb : Bootable cfg n) {i : ℕ} (hi : i < cfg.initSize) :
    (bootMachine cfg).mem (cfg.initStart + i) = cfg.mem (cfg.initStart + i) := by
  have h1 := hb.start
  have h2 := hb.finish
  exact bootMachine_mem hb.map (by omega) (image_not_usable (by omega) (by omega))

private theorem readMagic (hb : Bootable cfg n) {use : ℕ → Use} {fl : List ℕ}
    (ho : Owned use fl (bootMachine cfg)) :
    readUser32 (bootMachine cfg) cfg.initStart = some elfMagic := by
  have hl := hb.large
  rw [readUser32_eq fun i hi => hb.source ho.template (bootMachine_root cfg) (by omega),
    load_congr fun i hi => hb.content (by omega), hb.magic]

private theorem readable (hb : Bootable cfg n) {use : ℕ → Use} {f : ℕ} {fl : List ℕ}
    (ho : Owned use (f :: fl) (bootMachine cfg))
    (hfree : ∀ g ∈ f :: fl, g ∈ usablePages cfg.kernelEnd cfg.e820) :
    Readable (bootMachine cfg) f cfg.initStart cfg.initStart cfg.initSize := by
  have hstart := hb.start
  have hfinish := hb.finish
  constructor
  · intro i hi he
    exact image_not_usable (by omega) (by omega) (he ▸ hfree f List.mem_cons_self)
  · intro m hm i hi
    have hT : Template m := ho.template.congr fun g hg a h1 h2 => by
      have hgf : g ≠ f := ho.ne_head (by rw [(ho.templateUse g).mp hg]; exact nofun)
      exact hm.page (by omega) (by rwa [List.mem_singleton]) h1 h2
    have hroot := bootMachine_root cfg
    generalize bootMachine cfg = h at hm hroot ⊢
    exact hb.source (h := { h with mem := m }) hT hroot hi

/-- The usable pages but one are free, and the last of these is taken first. -/
private theorem pages (hb : Bootable cfg n) : ∃ use f fl,
    Owned use (f :: fl) (bootMachine cfg) ∧
      (usablePages cfg.kernelEnd cfg.e820).reverse.tail = f :: fl ∧
      (∀ g ∈ f :: fl, g ∈ usablePages cfg.kernelEnd cfg.e820) ∧
      (usablePages cfg.kernelEnd cfg.e820).length = fl.length + 2 ∧
      ∀ g, 0x4000 ≤ g → g ∉ usablePages cfg.kernelEnd cfg.e820 → use g = .none := by
  obtain ⟨use, ho, hnone⟩ := bootMachine_owned hb.map
  have hroom := hb.room
  have hlen : (usablePages cfg.kernelEnd cfg.e820).reverse.tail.length =
      (usablePages cfg.kernelEnd cfg.e820).length - 1 := by
    rw [List.length_tail, List.length_reverse]
  have hmem (g : ℕ) (hg : g ∈ (usablePages cfg.kernelEnd cfg.e820).reverse.tail) :
      g ∈ usablePages cfg.kernelEnd cfg.e820 := List.mem_reverse.mp (List.mem_of_mem_tail hg)
  cases hfl : (usablePages cfg.kernelEnd cfg.e820).reverse.tail with
  | nil =>
    rw [hfl, List.length_nil] at hlen
    omega
  | cons f fl =>
    rw [hfl] at ho hlen hmem
    rw [List.length_cons] at hlen
    exact ⟨use, f, fl, ho, rfl, hmem, by omega, hnone⟩

/-- The image staged at boot is one that the loader can rely on. -/
theorem goodBoot (hb : Bootable cfg n) : GoodBoot cfg := by
  obtain ⟨use, f, fl, ho, -, hfree, hlen, -⟩ := hb.pages
  have hlarge := hb.large
  have hsmall := hb.small
  have hroom := hb.room
  obtain ⟨h2, hstage, hcopy, hbytes, ho2, -⟩ := ho.staged (hb.readable ho hfree) (by omega) hsmall
  have hbytes (i : ℕ) (hi : i < cfg.initSize) : h2.mem (f + i) = cfg.mem (cfg.initStart + i) :=
    (hbytes i hi).trans (hb.content hi)
  obtain ⟨-, hf0, -, -⟩ := ho.head
  have hflt := hb.page_lt (hfree f List.mem_cons_self)
  refine ⟨hb.map, by have := hb.large; omega, fun w hw => ?_, fun pages h1 h2' hst hcp => ?_⟩
  · exact (Option.some.inj ((hb.readMagic ho).symm.trans hw)).symm
  · obtain ⟨hp, hh⟩ := Prod.mk.inj (hstage.symm.trans hst)
    obtain rfl := Option.some.inj hp
    subst hh
    obtain rfl := Option.some.inj (hcopy.symm.trans hcp)
    obtain ⟨hload, hpages⟩ := hb.image h2.mem f hflt hbytes
    refine ⟨fun i hi => ?_, hload, fl, ho2.chain, ?_⟩
    · rw [List.headD_cons, List.mem_singleton]
      omega
    · rw [List.headD_cons]
      omega

/-- The first task is created, in a safe kernel with most of the free pages left. Its address space
has the pages of the image and of the stack, and the init program is where it was. -/
theorem creates (hb : Bootable cfg n) : ∃ h kstack root codePages f m ms use fl,
    taskCreate (bootKernel cfg) cfg.initStart cfg.initSize 0x400000 1 =
      some (addTask (bootKernel cfg) h none 1 kstack root 0x400000 codePages) ∧
    kstack ≠ 0 ∧ root ≠ 0 ∧
    Safe use fl (addTask (bootKernel cfg) h none 1 kstack root 0x400000 codePages).2 ∧
    (usablePages cfg.kernelEnd cfg.e820).length ≤ fl.length + (21 + 4 * n) ∧
    NewSpace ms h.mem root ∧ f < 2 ^ 64 - 4096 ∧
    (∀ i < cfg.initSize, m (f + i) = cfg.mem (cfg.initStart + i)) ∧
    (∀ p ∈ ms, SegmentPage m f p.1 ∨ p.1 ∈ stackPages ((maxVaddr m f + 0x20000) % 2 ^ 64)) ∧
    bootMaps cfg = (root, ms) ∧ (∀ p ∈ ms, p.2 ∈ usablePages cfg.kernelEnd cfg.e820) ∧
    codePages = elfCodePages (maxVaddr m f) ∧
    fl.head? = (usablePages cfg.kernelEnd cfg.e820).reverse.tail.head? ∧
    ∀ i < cfg.initSize, h.mem (cfg.initStart + i) = cfg.mem (cfg.initStart + i) ∧
      use ((cfg.initStart + i) / 4096 * 4096) = .none := by
  obtain ⟨use, f, fl, ho, htail, hfree, hlen, hnone⟩ := hb.pages
  have hlarge := hb.large
  have hroom := hb.room
  have hstart := hb.start
  have hfinish := hb.finish
  have hflt := hb.page_lt (hfree f List.mem_cons_self)
  have hs : Safe use (f :: fl) (bootKernel cfg) := ⟨ho, nofun, nofun⟩
  have hmem (i : ℕ) (hi : i < cfg.initSize) :
      (bootKernel cfg).machine.mem (cfg.initStart + i) = cfg.mem (cfg.initStart + i) :=
    hb.content hi
  have hmagic : load (bootKernel cfg).machine.mem cfg.initStart 4 = elfMagic := by
    rw [load_congr fun i hi => hmem i (by omega), hb.magic]
  obtain ⟨h, kstack, root, codePages, m, ms, use', fl', hcreate, hs', hlen', -, hspace, hbytes, hv,
    hframes, hhead, hquiet, hidle, -, hmaps, hcode⟩ := createElf_loads hs (hb.readable ho hfree)
      hlarge hb.small hmagic (fun m hm => hb.image m f hflt fun i hi => (hm i hi).trans (hmem i hi))
      (by omega)
      (show 0 < 64 by decide) (fun hn => absurd hn.2 Bool.false_ne_true)
      (show findReuse (bootKernel cfg) 1 = none from rfl)
  have htask : taskCreate (bootKernel cfg) cfg.initStart cfg.initSize 0x400000 1 =
      some (addTask (bootKernel cfg) h none 1 kstack root 0x400000 codePages) := by
    rw [taskCreate, if_pos (by omega), show (bootKernel cfg).machine = bootMachine cfg from rfl,
      hb.readMagic ho, Option.bind_some, if_pos rfl, hcreate]
  obtain ⟨hk, hr⟩ := (taskCreate_creation htask).pages (Nat.succ_pos 0)
  refine ⟨h, kstack, root, codePages, f, m, ms, use', fl', htask, hk, hr, hs', by omega, hspace,
    hflt, fun i hi => (hbytes i hi).trans (hmem i hi), hv, hmaps,
    fun p hp => hfree _ (List.mem_cons_of_mem _ (hframes p hp)), hcode,
    by rw [hhead, htail, List.head?_cons], fun i hi => ?_⟩
  have hpage : (cfg.initStart + i) / 4096 * 4096 ∉ usablePages cfg.kernelEnd cfg.e820 :=
    image_not_usable (by omega) (by omega)
  have hnone := hnone _ (by omega) hpage
  refine ⟨?_, hidle _ hnone⟩
  rw [hquiet ((cfg.initStart + i) / 4096 * 4096) (by omega) hnone _ (by omega) (by omega),
    hmem i hi]

/-- The kernel boots to the first task, which runs alone. -/
theorem starts (hb : Bootable cfg n) : ∃ x r use fl, kmain cfg = some x ∧ x.phase = .user r ∧
    x.kernel.table = .boot ∧ Safe use fl x.kernel ∧ (x.kernel.tasks 0).stackPhys ≠ 0 ∧
    (usablePages cfg.kernelEnd cfg.e820).length ≤ fl.length + (21 + 4 * n) ∧
    (∃ f m ms, NewSpace ms x.kernel.machine.mem (x.kernel.tasks 0).pml4Phys ∧ f < 2 ^ 64 - 4096 ∧
      (∀ i < cfg.initSize, m (f + i) = cfg.mem (cfg.initStart + i)) ∧
      (∀ p ∈ ms, SegmentPage m f p.1 ∨ p.1 ∈ stackPages ((maxVaddr m f + 0x20000) % 2 ^ 64)) ∧
      bootMaps cfg = ((x.kernel.tasks 0).pml4Phys, ms) ∧
      (∀ p ∈ ms, p.2 ∈ usablePages cfg.kernelEnd cfg.e820) ∧ (x.kernel.tasks 0).loadAddr =
      0x400000 ∧
      (x.kernel.tasks 0).codePages = elfCodePages (maxVaddr m f)) ∧
    fl.head? = (usablePages cfg.kernelEnd cfg.e820).reverse.tail.head? ∧
    ∀ i < cfg.initSize, x.kernel.machine.mem (cfg.initStart + i) = cfg.mem (cfg.initStart + i) ∧
      use ((cfg.initStart + i) / 4096 * 4096) = .none := by
  obtain ⟨h, kstack, root, codePages, f, m, ms, use, fl, hc, hk, hr, hs, hlen, hspace, hflt, hbytes,
    hv, hmaps, hframes, hcode, hhead, himage⟩ := hb.creates
  refine ⟨_, _, use, fl, congrArg (Option.map _) hc, rfl, ?_,
    schedulerStart_safe hs fun _ => rfl, hk, hlen,
    ⟨f, m, ms, hspace, hflt, hbytes, hv, hmaps, hframes, rfl, hcode⟩, hhead, himage⟩
  have hzero (i : ℕ) : (bootKernel cfg).tasks i = zeroTask := by
    simp only [bootKernel, initialKernel, taskInit]
    split <;> rfl
  have hnone : (bootKernel cfg).numTasks = 0 := rfl
  refine TaskTable.ext rfl rfl rfl ?_ ?_ ?_ ?_ <;> funext i <;> by_cases hi : i = 0 <;>
    simp [Kernel.table, TaskTable.boot, schedulerStart, addTask, newTask, ipcInitTask, hi, hzero,
      zeroTask, hnone]

end Bootable

/-- A call that leaves its task alone in the table returns to it. -/
theorem step_alone {x : System} {io : Ports} {r r0 : Registers} {rax : ℕ} {k : Kernel}
    (hp : x.phase = .user r0) (hr : r.intNo = 0x80)
    (hk : syscallHandler x.kernel io r.syscall = some (.done rax k)) (hn : k.numTasks ≤ 1) :
    step x (.trap io r) = some ⟨k, .user { r with rax := .ofNat rax }⟩ := by
  rw [step_syscall hp hr hk, afterSyscall, if_neg (Nat.not_lt.mpr hn)]
  rfl

/-- A clone by a running task: the thread is in the first free slot, and both are ready when the
next task is chosen. -/
theorem step_clone {use : ℕ → Use} {f c : ℕ} {fl : List ℕ} {x : System} (io : Ports)
    {r0 : Registers} (r : Registers) {flags userStack entry arg : ℕ}
    (hs : Safe use (f :: fl) x.kernel)
    (hc : x.kernel.currentTask = some c) (hcn : c < x.kernel.numTasks) (hp : x.phase = .user r0)
    (hn : x.kernel.numTasks < maxTasks) (hr : r.intNo = 0x80)
    (hcall : r.syscall = .clone flags userStack entry arg) : ∃ h y r1 use',
      step x (.trap io r) = some y ∧ y.phase = .user r1 ∧
      x.kernel.table.step r.syscall = some y.kernel.table ∧ Safe use' fl y.kernel ∧
      SameTable (addTask x.kernel h none 0 f (x.kernel.tasks c).pml4Phys (x.kernel.tasks c).loadAddr
        0).2 y.kernel := by
  obtain ⟨h, use', heq, hsafe, -⟩ := Safe.cloned hc hcn hs hn flags userStack entry arg
  generalize hadd : addTask x.kernel h none 0 f (x.kernel.tasks c).pml4Phys
    (x.kernel.tasks c).loadAddr 0 = res at heq hsafe
  have hres : res.2.numTasks = x.kernel.numTasks + 1 ∧ res.2.currentTask = some c := by
    rw [← hadd]
    exact ⟨rfl, hc⟩
  have hk : syscallHandler x.kernel io r.syscall = some (.done (toU64 res.1) res.2) := by
    rw [hcall]
    exact congrArg (fun p => some (returnInt p)) heq
  have hpage : x.kernel.machine.freeStack ≠ 0 := by
    rw [Ne, hs.owned.freeStack_eq_zero_iff]
    exact List.cons_ne_nil f fl
  have ht : x.kernel.table.call c r.syscall = some res.2.table := by
    rw [hcall, table_sysClone hc hpage hn, heq]
  have hstep := step_syscall hp hr hk
  rw [afterSyscall_eq (by omega) hres.2] at hstep
  have hfin := Finish.call { r with rax := .ofNat (toU64 res.1) } hres.2
  have hcur (d : ℕ) (hd : res.2.currentTask = some d) : d < res.2.numTasks := by
    obtain rfl := Option.some.inj (hd.symm.trans hres.2)
    omega
  have hy := hsafe.finish hcur hfin
  refine ⟨h, _, _, use', hstep, rfl, ?_, hy.1, ?_⟩
  · rw [dispatch_kernel, table_reschedule, TaskTable.step,
      show x.kernel.table.current = some c from hc, Option.bind_some, ht, Option.bind_some]
    exact if_pos (by change 1 < res.2.numTasks; omega)
  · rw [hadd]
    exact hfin.sameTable

/-- An ELF file of 128 bytes at `base`: one loadable segment of one page at 0x400000 that holds
the file itself, with `int 0x80` and a jump back to it at the entry point. -/
def sampleImage (base : ℕ) : Mem :=
  [(0, 4, elfMagic), (24, 8, 0x400078), (32, 8, 64), (54, 2, 56), (56, 2, 1), (64, 4, ptLoad),
    (68, 4, 7), (80, 8, 0x400000), (96, 8, 128), (104, 8, 0x1000), (120, 4, 0xFCEB80CD)].foldl
    (fun m (f : ℕ × ℕ × ℕ) => store m (base + f.1) f.2.1 f.2.2) fun _ => 0

/-- A boot with that file as the init program in the last page of the kernel image. -/
def sampleConfig (e820 : List E820Entry) : BootConfig where
  mem := sampleImage 0x10F000
  e820 := e820
  kernelEnd := 0x110000
  initStart := 0x10F000
  initSize := 128

section Sample

variable {m : Mem} {buf : ℕ} (hbuf : buf ≤ 2 ^ 64 - 4096)
  (hm : ∀ i < 120, m (buf + i) = sampleImage 0x10F000 (0x10F000 + i))
include hm

/-- A field of the copy has the value it has in the file. -/
private theorem sample_field {o n v : ℕ} (ho : o + n ≤ 120)
    (hv : load (sampleImage 0x10F000) (0x10F000 + o) n = v) : load m (buf + o) n = v := by
  rw [← hv]
  refine load_copy fun i hi => ?_
  rw [Nat.add_assoc, Nat.add_assoc]
  exact hm (o + i) (by omega)

private theorem sample_phnum : elfPhnum m buf = 1 := sample_field hm (by decide) (by decide)

include hbuf in
private theorem sample_phdr : phdrAddr m buf 0 = buf + 64 := by
  have hoff : elfPhoff m buf = 64 := sample_field hm (by decide) (by decide)
  rw [phdrAddr, hoff, Nat.zero_mul]
  have hz : toInt 0 = 0 := by decide
  rw [hz]
  omega

private theorem sample_segment : phType m (buf + 64) = ptLoad ∧ phVaddr m (buf + 64) = 0x400000 ∧
    phFilesz m (buf + 64) = 128 ∧ phMemsz m (buf + 64) = 0x1000 := by
  simp only [phType, phVaddr, phFilesz, phMemsz, Nat.add_assoc, Nat.reduceAdd]
  exact ⟨sample_field hm (by decide) (by decide), sample_field hm (by decide) (by decide),
    sample_field hm (by decide) (by decide), sample_field hm (by decide) (by decide)⟩

include hbuf in
theorem sample_loadable : Loadable m buf ∧ imagePages m buf ≤ 1 := by
  have hn := sample_phnum hm
  have hp := sample_phdr hbuf hm
  obtain ⟨ht, hv, hf, hz⟩ := sample_segment hm
  refine ⟨⟨fun i hi => ?_, fun i hi _ => ?_⟩, ?_⟩
  · obtain rfl : i = 0 := by omega
    omega
  · obtain rfl : i = 0 := by omega
    rw [hp, hv, hf, hz]
    decide
  · rw [imagePages, hn]
    simp only [List.range_one, List.map_singleton, List.sum_singleton, segmentPages, hp, ht,
      if_true,
      segmentCursor, hv, hz]
    decide

include hbuf in
theorem sample_maxVaddr : maxVaddr m buf = 0x401000 := by
  have hn := sample_phnum hm
  have hp := sample_phdr hbuf hm
  obtain ⟨ht, hv, -, hz⟩ := sample_segment hm
  simp [maxVaddr, hn, hp, ht, hv, hz]

include hbuf in
/-- All that the loader maps for the file lies in the third 2 MiB of the address space. -/
theorem sample_pages {v : ℕ} (hv : SegmentPage m buf v ∨
    v ∈ stackPages ((maxVaddr m buf + 0x20000) % 2 ^ 64)) : v / 2 ^ 21 = 2 := by
  have hn := sample_phnum hm
  have hp := sample_phdr hbuf hm
  obtain ⟨-, hvaddr, -, hz⟩ := sample_segment hm
  rcases hv with ⟨j, hj, -, hv⟩ | hv
  · obtain rfl : j = 0 := by omega
    rw [segmentCursor, hp, hvaddr, hz] at hv
    obtain ⟨h1, -, h2⟩ := mem_pageCursor hv
    simp only [rangeStart, rangeEnd] at h1 h2
    omega
  · rw [sample_maxVaddr hbuf hm] at hv
    simp only [stackPages, List.range_succ, List.range_zero, List.nil_append, List.cons_append,
      List.map_cons, List.map_nil, List.mem_cons, List.not_mem_nil, or_false] at hv
    omega

end Sample

theorem sampleConfig_bootable {e820 : List E820Entry} (hg : GoodMap e820)
    (hroom : 26 ≤ (usablePages 0x110000 e820).length) : Bootable (sampleConfig e820) 1 where
  map := hg
  large := (by decide : 64 ≤ 128)
  small := (by decide : 128 ≤ 4096)
  start := (by decide : 0x100000 ≤ 0x10F000)
  finish := (by decide : 0x10F000 + 128 ≤ 0x110000)
  kernel := (by decide : 0x110000 ≤ 2 ^ 30)
  magic := (by decide : load (sampleImage 0x10F000) 0x10F000 4 = elfMagic)
  image := fun _ _ hbuf hm => sample_loadable hbuf.le fun i hi =>
    hm i (hi.trans (by decide : 120 < 128))
  room := hroom

/-- 64 usable pages right above the kernel image. -/
def sampleMap : List E820Entry := [⟨0x110000, 0x40000, 1⟩]

theorem sampleMap_good : GoodMap sampleMap where
  bounded := by decide
  disjoint := List.pairwise_singleton _ _

/-- The sample configuration with that map boots. -/
theorem sample_bootable : Bootable (sampleConfig sampleMap) 1 :=
  sampleConfig_bootable sampleMap_good (by decide)

/-- What `kmain` starts is a kernel with the tasks created before. -/
theorem kmain_created {cfg : BootConfig} {x : System} (h : kmain cfg = some x) :
    ∃ s, Created s ∧ x = schedulerStart s ∧ s.numTasks = x.kernel.numTasks := by
  obtain ⟨⟨res, s⟩, hres, rfl⟩ := Option.map_eq_some_iff.mp h
  refine ⟨s, .create (.init _) hres, rfl, ?_⟩
  simp only [schedulerStart]
  split <;> rfl

theorem sample_started : ∃ x r use fl, kmain (sampleConfig sampleMap) = some x ∧
    x.phase = .user r ∧ x.kernel.table = .boot ∧ Safe use fl x.kernel ∧
    (x.kernel.tasks 0).stackPhys ≠ 0 ∧ 39 ≤ fl.length := by
  obtain ⟨x, r, use, fl, hk, hp, ht, hs, hk0, hlen, -⟩ := sample_bootable.starts
  have hall : (usablePages (sampleConfig sampleMap).kernelEnd
      (sampleConfig sampleMap).e820).length =
      64 := by decide
  exact ⟨x, r, use, fl, hk, hp, ht, hs, hk0, by omega⟩

/-- The init program of the sample boot lies in the third 2 MiB. -/
private theorem sample_bootMaps {p : ℕ × ℕ} (hp : p ∈ (bootMaps (sampleConfig sampleMap)).2) :
    p.1 / 2 ^ 21 = 2 := by
  obtain ⟨x, r, use, fl, -, -, -, -, -, -, ⟨f, m, ms, -, hf, hbytes, hv, hmaps, -⟩, -⟩ :=
    sample_bootable.starts
  rw [hmaps] at hp
  exact sample_pages hf.le (fun i hi => hbytes i (hi.trans (by decide : 120 < 128))) (hv p hp)

theorem sample_boot_spares {va : ℕ} (hva : va < 0x400000) :
    ¬ TouchedBy (bootMaps (sampleConfig sampleMap)).2 va := by
  rintro ⟨p, hp, ht⟩
  have hpage := sample_bootMaps hp
  have hregion : trail va 3 = trail p.1 3 := ht.elim (fun h4 => (trail_last h4).1) fun h3 => h3.2
  rw [trail_three_iff] at hregion
  omega

theorem sample_usable : ∀ g ∈ usablePages (sampleConfig sampleMap).kernelEnd
    (sampleConfig sampleMap).e820, g < 0x150000 := by decide +kernel

/-- All pages that the kernel tracks after the sample boot lie below 0x150000, and the first task's
root maps this region to itself. -/
theorem sample_direct : ∃ x r use fl, kmain (sampleConfig sampleMap) = some x ∧
    x.phase = .user r ∧ x.kernel.table = .boot ∧ Safe use fl x.kernel ∧ 39 ≤ fl.length ∧
    LowOpen x.kernel.machine.mem (x.kernel.tasks 0).pml4Phys ∧
    (∀ g, use g ≠ .none → g < 0x150000) ∧ ∀ va < 0x400000,
      translate (pagingSwitch x.kernel.machine (x.kernel.tasks 0).pml4Phys) va = some va := by
  obtain ⟨x, r, use0, fl0, hk, hp, ht, hs0, -, hlen⟩ := sample_started
  have hn : x.kernel.numTasks = 1 := congrArg TaskTable.num ht
  obtain ⟨use, fl, hs, hspace, hnone⟩ := kmain_spaces sample_bootable.goodBoot hk
  obtain ⟨hroot, hnew, hlow, -⟩ := hspace 0 (by omega)
  obtain rfl := hs.owned.chain.unique hs0.owned.chain
  refine ⟨x, r, use, fl, hk, hp, ht, hs, hlen, by rwa [hroot], fun g hg => ?_, fun va hva => ?_⟩
  · by_contra hge
    exact hg (hnone g (by omega) fun hmem => hge (sample_usable g hmem))
  · have hcan : canonical va := by
      simp only [canonical, Bool.or_eq_true, decide_eq_true_eq]
      omega
    have hw : walk present x.kernel.machine.mem va 3 (bootMaps (sampleConfig sampleMap)).1 =
        templateWalk present va := hnew.kept _ access_present va (sample_boot_spares hva)
    have hid : templateWalk present va = some va := by
      rw [templateWalk, if_pos ⟨by decide, by omega⟩, Nat.mod_eq_of_lt (by omega)]
    rw [translate, if_pos hcan]
    change walk present x.kernel.machine.mem va 3 (x.kernel.tasks 0).pml4Phys = some va
    rw [hroot, hw, hid]

/-- The first task of the sample boot creates a thread, which runs next. -/
theorem sample_cloned : ∃ x h f y r use fl, kmain (sampleConfig sampleMap) = some x ∧
    x.kernel.table = .boot ∧ step x (.trap quietPorts (.call 21 0 0 0 0)) = some y ∧ y.phase =
    .user r ∧
    TaskTable.boot.step (.clone 0 0 0 0) = some y.kernel.table ∧ Safe use fl y.kernel ∧
    (x.kernel.tasks 0).stackPhys ≠ 0 ∧ f ≠ 0 ∧ 38 ≤ fl.length ∧
    SameTable (addTask x.kernel h none 0 f (x.kernel.tasks 0).pml4Phys (x.kernel.tasks 0).loadAddr
      0).2 y.kernel := by
  obtain ⟨x, r, use, fl, hk, hp, ht, hs, hk0, hlen⟩ := sample_started
  have hc : x.kernel.currentTask = some 0 := congrArg TaskTable.current ht
  have hn : x.kernel.numTasks = 1 := congrArg TaskTable.num ht
  cases fl with
  | nil => exact absurd hlen (by decide)
  | cons f fl =>
    obtain ⟨h, y, r1, use', hstep, hy, hty, hsy, hsame⟩ := step_clone quietPorts
      (.call 21 0 0 0 0) hs hc (by omega) hp (by rw [hn]; decide) rfl rfl
    rw [ht] at hty
    exact ⟨x, h, f, y, r1, use', fl, hk, ht, hstep, hy, hty, hsy, hk0, hs.owned.head.2.2.1.ne',
      Nat.le_of_succ_le_succ hlen, hsame⟩

/-- States that plain calls lead to after that. -/
theorem sample_run (rs : List Registers) {t : TaskTable} (hr : ∀ r ∈ rs, r.plainCall)
    (h : (TaskTable.boot.step (.clone 0 0 0 0)).bind (·.steps rs) = some t) :
    ∃ x y r, kmain (sampleConfig sampleMap) = some x ∧ Runs.Reach step Runs.anyStep x y ∧
      y.phase = .user r ∧ y.kernel.table = t := by
  obtain ⟨x, m, f, y, r, use, fl, hk, -, hstep, hy, hty, -⟩ := sample_cloned
  rw [hty, Option.bind_some] at h
  obtain ⟨z, r1, hz, hp, ht⟩ := reach_table quietPorts hy hr h
  exact ⟨x, z, r1, hk, (Runs.Reach.tail .refl trivial hstep).trans hz, hp, ht⟩

end Mukrn
