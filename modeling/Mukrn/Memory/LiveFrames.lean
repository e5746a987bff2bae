import Mukrn.Memory.Given
import Mukrn.Memory.MapPhys

/-! The pages of tasks that have not ended. Threads share their parent's address space, and what the
end of a task gives back is read off its own slot. As long as only threads end, no kernel stack,
page table or user page of a live task is on the free list; the end of a process puts its page table
on the list, also when a thread still runs on it. -/
namespace Mukrn
open ByteMemory PageTable LinkedStack Runs

/-- Pages that belong to slot `i`: its kernel stack, and the tables and the user pages of its
address space. -/
inductive TaskFrame (s : Kernel) (i : ℕ) : ℕ → Prop
  | stack (h0 : (s.tasks i).stackPhys ≠ 0) : TaskFrame s i (s.tasks i).stackPhys
  | table {p : List ℕ} {t : ℕ} (hat : TableAt present s.machine.mem (s.tasks i).pml4Phys p t) :
      TaskFrame s i t
  | page {va pa : ℕ} (hw : walk userOpen s.machine.mem va 3 (s.tasks i).pml4Phys = some pa) :
      TaskFrame s i (frameOf pa)

/-- The page is met when the free list is followed, whether or not the list ends. -/
def MetFree (h : Machine) (f : ℕ) : Prop := Met (load64 h.mem) 0 h.freeStack f

/-- Pages that the allocator was never given, other than those of the boot tables. -/
def Foreign (cfg : BootConfig) (g : ℕ) : Prop :=
  g % 4096 = 0 ∧ g < 2 ^ 64 ∧ g ∉ usablePages cfg.kernelEnd cfg.e820 ∧
    ¬ (g = 0x1000 ∨ g = 0x2000 ∨ g = 0x3000)

/-- Pages that may be opened to user mode: foreign ones, and those that user mode reaches anyway. -/
def Spare (cfg : BootConfig) (s : Kernel) (g : ℕ) : Prop :=
  Foreign cfg g ∨ ∃ i < s.numTasks, ∃ va pa,
    walk userOpen s.machine.mem va 3 (s.tasks i).pml4Phys = some pa ∧ frameOf pa = g

/-- Pages mapped to frames of the allocator open these frames, and nothing else but pages that may
be opened. They do where no page is mapped as a 2 MiB page. -/
def OpensOnly (ok : ℕ → Prop) (ms : List (ℕ × ℕ)) : Prop :=
  ∀ p ∈ ms, ∀ va, Touches p.1 p.2 va →
    frameOf (mappedTo p.1 p.2 va) = p.2 ∨ ok (frameOf (mappedTo p.1 p.2 va))

/-- A request of slot `c` opens nothing else to user mode. -/
def SpareRequest (cfg : BootConfig) (s : Kernel) (c : ℕ) : Request → Prop
  | .call _ (.mmapPhys virt phys size flags) =>
    ∀ p ∈ callMaps s c (.mmapPhys virt phys size flags), ∀ va, Touches p.1 p.2 va →
      Spare cfg s (frameOf (mappedTo p.1 p.2 va))
  | .call _ (.mprotect virt size _) =>
    ∀ v ∈ pageCursor (rangeStart virt) (rangeEnd virt size), ∀ va pa, trail va 4 = trail v 4 →
      walk present s.machine.mem va 3 (s.tasks c).pml4Phys = some pa → Spare cfg s (frameOf pa)
  | .call _ (.spawnAt addr size) => OpensOnly (Spare cfg s) (elfMaps s addr size 0).2
  | .call _ call => OpensOnly (Spare cfg s) (callMaps s c call)
  | _ => True

/-- What each step of a run has to meet. Of stores in user mode it is only asked that they spare the
kernel image. -/
def SoundSpare (cfg : BootConfig) (own : ℕ → Prop) (x : System) (i : Input) : Prop :=
  (i.request.isStore = false → Sound x i) ∧ Sparing cfg own x i ∧
    ∀ c, x.kernel.currentTask = some c → SpareRequest cfg x.kernel c i.request

/-- User mode reaches user data only, foreign pages included, and the page at address 0. -/
structure OpensData (cfg : BootConfig) (use : ℕ → Use) (s : Kernel) : Prop where
  reached : ∀ i < s.numTasks, ∀ va pa,
    walk userOpen s.machine.mem va 3 (s.tasks i).pml4Phys = some pa →
      frameOf pa = 0 ∨ use (frameOf pa) = .data
  foreign : ∀ g, Foreign cfg g → g = 0 ∨ use g = .data

section

variable {cfg : BootConfig} {use use' : ℕ → Use} {fl : List ℕ} {s k : Kernel}

/-- Pages of no use can be counted as user data. -/
theorem Owned.claim {h : Machine} (ho : Owned use fl h) (claimed : ℕ → Prop) [DecidablePred claimed]
    (hc : ∀ g, claimed g → use g = .none ∧ g % 4096 = 0 ∧ 0 < g ∧ g < 2 ^ 64) :
    Owned (fun g => if claimed g then .data else use g) fl h := by
  have hiff (g : ℕ) {u : Use} (hn : u ≠ .none) (hd : u ≠ .data) :
      (if claimed g then .data else use g) = u ↔ use g = u := by
    by_cases hg : claimed g
    · rw [if_pos hg, (hc g hg).1]
      exact iff_of_false hd.symm hn.symm
    · rw [if_neg hg]
  have hshape : shape (fun g => if claimed g then .data else use g) = shape use := by
    funext g
    refine Option.ext fun x => ?_
    obtain ⟨r, p⟩ := x
    rw [shape_eq_some, shape_eq_some]
    exact hiff g (by simp) (by simp)
  refine ⟨fun g hg => ?_, ho.chain, ho.nodup, fun g => (ho.free g).trans (hiff g ?_ ?_).symm, ?_,
    ho.template, fun g => (ho.templateUse g).trans (hiff g ?_ ?_).symm⟩
  · by_cases hgc : claimed g
    · exact (hc g hgc).2
    · simp only [if_neg hgc] at hg
      exact ho.page g hg
  · simp
  · simp
  · rw [hshape]
    exact ho.tree
  · simp
  · simp

theorem Safe.claim (hs : Safe use fl s) (claimed : ℕ → Prop) [DecidablePred claimed]
    (hc : ∀ g, claimed g → use g = .none ∧ g % 4096 = 0 ∧ 0 < g ∧ g < 2 ^ 64) :
    Safe (fun g => if claimed g then .data else use g) fl s := by
  have hkeep (g : ℕ) (hg : use g ≠ .none) : (if claimed g then .data else use g) = use g :=
    if_neg fun h => hg (hc g h).1
  refine hs.machine (hs.owned.claim claimed hc) (fun f i hf => ?_) fun i hi => hkeep _ ?_
  · rw [hkeep f (by simp [hf]), hf]
  · simp [hs.root i hi]

theorem OpensData.spare (hx : OpensData cfg use s) {g : ℕ} (hg : Spare cfg s g) :
    g = 0 ∨ use g = .data := by
  rcases hg with hg | ⟨i, hi, va, pa, hw, rfl⟩
  · exact hx.foreign g hg
  · exact hx.reached i hi va pa hw

/-- One step. -/
theorem OpensData.step {c : ℕ} {q : Request} (hx : OpensData cfg use s)
    (h : SpaceEffect s c use' k q) (hc : c < s.numTasks) (hd : KeepsData use use')
    (hq : SpareRequest cfg s c q) : OpensData cfg use' k := by
  have hspare {g : ℕ} (hg : Spare cfg s g) : g = 0 ∨ use' g = .data :=
    (hx.spare hg).imp_right (hd g)
  refine ⟨fun i hi va pa hpa => ?_, fun g hg => (hx.foreign g hg).imp_right (hd g)⟩
  have hopens {ms : List (ℕ × ℕ)} {p : ℕ × ℕ} (ho : OpensOnly (Spare cfg s) ms) (hp : p ∈ ms)
      (ht : Touches p.1 p.2 va) (hg : use' p.2 = .data) :
      frameOf (mappedTo p.1 p.2 va) = 0 ∨ use' (frameOf (mappedTo p.1 p.2 va)) = .data := by
    rcases ho p hp va ht with he | hs
    · rw [he]
      exact .inr hg
    · exact hspare hs
  cases h.userReached hc hi hpa with
  | before hj _ hw => exact (hx.reached _ hj va pa hw).imp_right (hd _)
  | @mapped io call p _ hp ht hpa hg =>
    rw [hpa]
    cases call with
    | mmapPhys => exact hspare (hq p hp va ht)
    | mprotect | spawnAt => cases hp
    | _ => exact hopens hq hp ht (hg rfl)
  | reflagged _ hv ht hw => exact hspare (hq _ hv va pa ht hw)
  | loaded _ hp ht hpa hg =>
    rw [hpa]
    exact hopens hq hp ht hg

theorem OpensData.sound_store {c virt : ℕ} {b : UInt8} (hx : OpensData cfg use s)
    (hs : Safe use fl s) (hc : Scheduled s c) : SoundRequest s c (.store virt b) := by
  refine hs.sound_store hc fun pa hw => ?_
  rcases hx.reached c hc.lt virt pa hw with h0 | hd
  · rw [h0]
    exact .inl hs.owned.use_zero
  · exact .inr hd

/-- Where user mode reaches user data only, nothing that a live task uses is free. -/
theorem OpensData.not_met (hx : OpensData cfg use s) (hs : Safe use fl s) {i f : ℕ}
    (hi : i < s.numTasks) (hl : s.live i) (hf : TaskFrame s i f) : ¬ MetFree s.machine f := by
  have huse : f = 0 ∨ use f ≠ .free := by
    cases hf with
    | stack h0 =>
      have hu := (hs.stack i hi (.inl hl)).resolve_left h0
      exact .inr (by simp [hu])
    | table hat =>
      have hst := hs.owned.tree.linked.tableAt access_present.present
        (shape_eq_some.mpr (hs.root i hi)) hat
      exact .inr (by simp [shape_eq_some.mp hst])
    | page hw => exact (hx.reached i hi _ _ hw).imp_right fun hd => by simp [hd]
  intro hmet
  rcases huse with h0 | hne
  · exact hmet.1 h0
  · exact hne ((hs.owned.free f).mp (hs.owned.chain.met_iff.mp hmet))

end

/-- Boot opens the pages of the init program. -/
theorem kmain_opensData {cfg : BootConfig} {x : System} (hg : GoodBoot cfg)
    (hk : kmain cfg = some x) (hboot : OpensOnly (Foreign cfg) (bootMaps cfg).2) :
    ∃ use fl, Safe use fl x.kernel ∧ OpensData cfg use x.kernel := by
  classical
  obtain ⟨use, fl, hs, hspace, hnone⟩ := kmain_spaces hg hk
  have hclaim (g : ℕ) (hf : Foreign cfg g ∧ g ≠ 0) :
      use g = .none ∧ g % 4096 = 0 ∧ 0 < g ∧ g < 2 ^ 64 := by
    obtain ⟨⟨hal, hlt, hmem, htemplate⟩, h0⟩ := hf
    exact ⟨hnone g (by omega) hmem, hal, by omega, hlt⟩
  have hforeign (g : ℕ) (hf : Foreign cfg g) :
      g = 0 ∨ (if Foreign cfg g ∧ g ≠ 0 then .data else use g) = .data :=
    or_iff_not_imp_left.mpr fun h0 => if_pos ⟨hf, h0⟩
  refine ⟨_, fl, hs.claim (fun g => Foreign cfg g ∧ g ≠ 0) hclaim, fun i hi va pa hw => ?_,
    hforeign⟩
  obtain ⟨hroot, hn, -, hdata⟩ := hspace i hi
  rw [hroot] at hw
  obtain ⟨p, hp, ht, rfl⟩ := hn.user_target hw
  rcases hboot p hp va ht with he | hf
  · have hp : use p.2 = .data := hdata p hp
    rw [he, if_neg fun h => by simp [(hclaim p.2 h).1] at hp]
    exact .inr hp
  · exact hforeign _ hf

/-- In every run in which only threads end, the kernel's pages are spared, and user mode is given no
page but its own, foreign ones and what it reaches anyway, no page of a live task is met on the free
list. -/
theorem live_frames_not_free {cfg : BootConfig} {own : ℕ → Prop} {x0 y : System} (hg : GoodBoot cfg)
    (hk : kmain cfg = some x0) (hb : SparingBoot cfg own)
    (hboot : OpensOnly (Foreign cfg) (bootMaps cfg).2)
    (hy : Reach step (SoundSpare cfg own) x0 y) :
    (∀ i < y.kernel.numTasks, y.kernel.live i → ∀ f, TaskFrame y.kernel i f →
      ¬ MetFree y.kernel.machine f) ∧
    ∀ i < y.kernel.numTasks,
      KernelMapped cfg own y.kernel.machine.mem (y.kernel.tasks i).pml4Phys := by
  obtain ⟨use, fl, hs, hx⟩ := kmain_opensData hg hk hboot
  have hinv := reach_safe_invariant (P := fun use k => OpensData cfg use k ∧
      ∀ i < k.numTasks, KernelMapped cfg own k.machine.mem (k.tasks i).pml4Phys) hk
    ⟨use, fl, hs, hx, kmain_kernelMapped hg hk hb⟩ ?_ ?_ hy
  · obtain ⟨use', fl', hs', hx', hm⟩ := hinv
    exact ⟨fun i hi hl f hf => hx'.not_met hs' hi hl hf, hm⟩
  · intro x i c use fl hc hs hx hok
    cases hq : i.request with
    | store virt b => exact hx.1.sound_store hs hc
    | _ =>
      rw [← hq]
      exact hok.1 (by rw [hq]; rfl) c hc.current
  · intro x i y c use fl use' fl' hc hs hx hok h _ hd heffect
    exact ⟨hx.1.step heffect hc.lt hd (hok.2.2 c hc.current),
      SparesKernel.step hs hc hb.low (fun _ => (hok.2.1 c hc.current).1) hx.2 heffect h⟩

section Ends

variable {sh : Shape} {m m' : Mem} {h : Machine} {r t v : ℕ} {p : List ℕ}

/-- For where a table is, neither its own contents matter nor those of pages that are no tables. -/
theorem tableAt_sameOutside {pages : List ℕ} (hat : TableAt present m r p t) (hL : Linked sh m)
    (hr : sh r = some (r, [])) (hm : SameOutside pages m m')
    (hp : ∀ f ∈ pages, f = t ∨ sh f = none) : TableAt present m' r p t := by
  refine hat.congr hL access_present.present hr fun t' q ht' hlt i hi => ?_
  have hn : t' ∉ pages := by
    intro hn
    rcases hp t' hn with rfl | hnone
    · rw [hL.tableAt access_present.present hr hat] at ht'
      obtain ⟨-, rfl⟩ := Prod.mk.inj (Option.some.inj ht')
      exact Nat.lt_irrefl _ hlt
    · rw [hnone] at ht'
      cases ht'
  exact entry_of_page (fun a h1 h2 => hm.page (hL.aligned t' r q ht') hn h1 h2) hi

/-- A page table is linked from the third level. -/
theorem tableAt_third (hat : TableAt present m r (trail v 3) t) :
    ∃ t2, TableAt present m r (trail v 2) t2 ∧ present (entry m t2 (pdtIndex v)) ∧
      huge (entry m t2 (pdtIndex v)) = false ∧ t = frameOf (entry m t2 (pdtIndex v)) := by
  obtain ⟨t2, hat2, -, -, he, hh, ht⟩ := TableAt.link (p := trail v 2) hat
  have hne : trail v 2 ≠ [] := List.ne_nil_of_length_pos (by rw [trail_length]; decide)
  exact ⟨t2, hat2, he, hh.resolve_left hne, ht⟩

/-- `read_pte` stops at the third level and reports the page table. -/
theorem readPte_table (hat : TableAt present m r (trail v 3) t) (hv : v % 4096 = 0) :
    readPte m r v = t := by
  obtain ⟨t2, hat2, he, -, ht⟩ := tableAt_third hat
  rw [readPte_third hat2, if_pos he, hv, ht, Nat.add_zero]

theorem unmapPage_table (hat : TableAt present h.mem h.pagingRoot (trail v 3) t) :
    unmapPage h v = clearEntry h t (ptIndex v) := by
  obtain ⟨t2, hat2, -, hh, ht⟩ := tableAt_third hat
  have hthird := thirdTable_iff.mpr hat2
  rcases unmapPage_cases h v with ⟨-, hn, -⟩ | ⟨-, -, -, -, hn, -⟩ | ⟨t', ht', heq⟩
  · rw [hthird] at hn
    cases hn
  · rw [hthird] at hn
    cases hn
  · obtain rfl := Option.some.inj (hthird.symm.trans ht')
    rw [heq, hh, ht]
    rfl

/-- One turn of `free_user_range`: the page table is given back, and then an entry in it cleared. -/
theorem freeUserPage_table (hat : TableAt present h.mem h.pagingRoot (trail v 3) t)
    (hkept : ∀ m', SameOutside [t] h.mem m' → TableAt present m' h.pagingRoot (trail v 3) t)
    (hv : v % 4096 = 0) (ht : t % 4096 = 0) (h0 : t ≠ 0) :
    freeUserPage h.pagingRoot h v = clearEntry (pmmFreePage h t) t (ptIndex v) := by
  have hframe : frameOf t = t := by
    unfold frameOf
    omega
  have hout : SameOutside [t] h.mem (pmmFreePage h t).mem :=
    .one ht fun a ha => fill_outside (by omega)
  have hat' : TableAt present (pmmFreePage h t).mem (pmmFreePage h t).pagingRoot (trail v 3) t :=
    hkept _ hout
  rw [freeUserPage, readPte_table hat hv, if_pos h0, hframe, unmapPage_table hat']

/-- The state of the loop while pages of one table are given back: the table is on top of the free
list, and nothing but its own contents has changed. -/
structure GivingBack (m : Mem) (r t : ℕ) (h : Machine) : Prop where
  root : h.pagingRoot = r
  top : h.freeStack = t
  same : SameOutside [t] m h.mem

section

variable (hL : Linked sh m) (hr : sh r = some (r, [])) (hat : TableAt present m r p t)
  (ht : t % 4096 = 0) (h0 : t ≠ 0)
include hL hr hat ht h0

/-- From the first turn on the table is on top, and from the second on it links to itself. -/
theorem freeUserPage_givesBack (hv : trail v 3 = p) (hv0 : v % 4096 = 0) (hroot : h.pagingRoot = r)
    (hm : SameOutside [t] m h.mem) : GivingBack m r t (freeUserPage r h v) ∧
      (h.freeStack = t → t < 2 ^ 64 → ptIndex v ≠ 0 → load64 (freeUserPage r h v).mem t = t) := by
  have hkept (m' : Mem) (hm' : SameOutside [t] m m') :
      TableAt present m' h.pagingRoot (trail v 3) t := by
    rw [hroot, hv]
    exact tableAt_sameOutside hat hL hr hm' (by simp)
  have hturn := freeUserPage_table (hkept _ hm)
    (fun m' hm' => hkept m' ((hm.trans hm').mono (by simp))) hv0 ht h0
  rw [hroot] at hturn
  have hout : SameOutside [t] h.mem (clearEntry (pmmFreePage h t) t (ptIndex v)).mem := by
    refine .one ht fun a ha => (setEntry_outside _ _ (index_lt 0 v) ha).trans ?_
    exact fill_outside (by omega)
  rw [hturn]
  refine ⟨⟨hroot, rfl, (hm.trans hout).mono (by simp)⟩, fun htop hlt hidx => ?_⟩
  have hkeep : load64 (clearEntry (pmmFreePage h t) t (ptIndex v)).mem t =
      load64 (pmmFreePage h t).mem t := load_store_outside (by omega)
  rw [hkeep, ← htop]
  exact load64_store64 (by omega)

/-- Several turns. -/
theorem freeUserPages_givesBack {vs : List ℕ} (hvs : ∀ v ∈ vs, trail v 3 = p ∧ v % 4096 = 0)
    (hroot : h.pagingRoot = r) (hm : SameOutside [t] m h.mem) (hsome : vs ≠ [] ∨ h.freeStack = t) :
    GivingBack m r t (vs.foldl (freeUserPage r) h) ∧
      (h.freeStack = t → t < 2 ^ 64 → (∀ v ∈ vs, ptIndex v ≠ 0) → vs ≠ [] →
        load64 (vs.foldl (freeUserPage r) h).mem t = t) := by
  induction vs generalizing h with
  | nil => exact ⟨⟨hroot, hsome.resolve_left fun hn => hn rfl, hm⟩, fun _ _ _ hn => absurd rfl hn⟩
  | cons v vs ih =>
    obtain ⟨⟨hv, hv0⟩, hvs⟩ := List.forall_mem_cons.mp hvs
    obtain ⟨hb, hlink⟩ := freeUserPage_givesBack hL hr hat ht h0 hv hv0 hroot hm
    rw [List.foldl_cons]
    obtain ⟨hb', hlink'⟩ := ih hvs hb.root hb.same (.inr hb.top)
    refine ⟨hb', fun htop hlt hidx _ => ?_⟩
    obtain ⟨hidx, hrest⟩ := List.forall_mem_cons.mp hidx
    by_cases hne : vs = []
    · rw [hne, List.foldl_nil]
      exact hlink htop hlt hidx
    · exact hlink' hb.top hlt hrest hne

theorem freeUserRange_givesBack {start finish : ℕ} (hsome : start < finish)
    (hvs : ∀ v ∈ pageCursor start finish, trail v 3 = p ∧ v % 4096 = 0)
    (hm : SameOutside [t] m h.mem) :
    GivingBack m h.pagingRoot t (freeUserRange h r start finish) ∧
      (h.freeStack = t → t < 2 ^ 64 → (∀ v ∈ pageCursor start finish, ptIndex v ≠ 0) →
        load64 (freeUserRange h r start finish).mem t = t) := by
  have hne : pageCursor start finish ≠ [] := List.ne_nil_of_mem (mem_pageCursor_of le_rfl rfl hsome)
  obtain ⟨hb, hlink⟩ := freeUserPages_givesBack hL hr hat ht h0 (h := pagingSwitch h r) hvs rfl hm
    (.inl hne)
  unfold freeUserRange
  generalize (pageCursor start finish).foldl (freeUserPage r) (pagingSwitch h r) = h1 at hb hlink ⊢
  exact ⟨⟨rfl, hb.top, hb.same⟩, fun htop hlt hidx => hlink htop hlt hidx hne⟩

end

/-- The end of a process that fits into the page table at its load address: the table is on the free
list, linked to itself, so that every allocation from then on returns it. -/
theorem freeUserMemory_table {task : Task} (hload : task.loadAddr = 0x400000)
    (hcode : 0 < task.codePages ∧ task.codePages ≤ 512) (hL : Linked sh h.mem)
    (hr : sh task.pml4Phys = some (task.pml4Phys, [])) (hr0 : task.pml4Phys ≠ 0)
    (hat : TableAt present h.mem task.pml4Phys (trail 0x400000 3) t) (ht : t % 4096 = 0)
    (h0 : t ≠ 0) (hlt : t < 2 ^ 64) :
    (freeUserMemory h task).freeStack = t ∧ SameOutside [t] h.mem (freeUserMemory h task).mem ∧
      load64 (freeUserMemory h task).mem t = t := by
  have hrange : task.codeRange = (0x400000, 0x400000 + task.codePages * 4096) := by
    rw [Task.codeRange, hload, Nat.mod_eq_of_lt (by omega)]
  have hstack : task.stackRange = (0x4FC000, 0x500000) := by
    simp [Task.stackRange, hload]
  have hpages {start finish : ℕ} (h1 : 0x400000 ≤ start) (h2 : finish ≤ 0x600000)
      (hs : start % 4096 = 0) (v : ℕ) (hv : v ∈ pageCursor start finish) :
      trail v 3 = trail 0x400000 3 ∧ v % 4096 = 0 := by
    obtain ⟨hv1, hv2, hv3⟩ := mem_pageCursor hv
    exact ⟨trail_region (by omega), hv2.trans hs⟩
  obtain ⟨hb, -⟩ := freeUserRange_givesBack hL hr hat ht h0 (by omega)
    (hpages le_rfl (by omega : 0x400000 + task.codePages * 4096 ≤ 0x600000) (by decide))
    (fun _ _ => rfl)
  obtain ⟨hb2, hlink⟩ := freeUserRange_givesBack hL hr hat ht h0
    (by decide : 0x4FC000 < 0x500000) (hpages (by decide) (by decide) (by decide)) hb.same
  rw [freeUserMemory, if_pos ⟨hr0, hcode.1.ne'⟩, hrange, hstack]
  refine ⟨hb2.top, hb2.same, hlink hb.top hlt fun v hv => ?_⟩
  obtain ⟨h1, -, h2⟩ := mem_pageCursor hv
  simp only [ptIndex]
  omega

section

variable {use : ℕ → Use} {fl : List ℕ} {s : Kernel} {i : ℕ} (hs : Safe use fl s)
  (hi : i < s.numTasks) (hl : s.live i ∨ s.currentTask = some i)
include hs hi hl

/-- The kernel stack of a task is no table. -/
theorem Safe.stack_page : (s.tasks i).stackPhys % 4096 = 0 ∧
    shape use (s.tasks i).stackPhys = none ∧ ¬ (use (s.tasks i).stackPhys).Critical := by
  rcases hs.stack i hi hl with h0 | hu
  · have hz := hs.owned.use_zero
    rw [h0]
    simp [shape, hz, Use.Critical]
  · have hpage := hs.owned.page (s.tasks i).stackPhys (by simp [hu])
    simp [shape, hu, Use.Critical, hpage]

/-- The end of such a process in a safe kernel, by whatever call. -/
theorem Safe.ended_table
    (hload : (s.tasks i).loadAddr = 0x400000)
    (hcode : 0 < (s.tasks i).codePages ∧ (s.tasks i).codePages ≤ 512)
    (hat : TableAt present s.machine.mem (s.tasks i).pml4Phys (trail 0x400000 3) t) :
    (freeUserMemory (freeStackPage s.machine (s.tasks i)) (s.tasks i)).freeStack = t ∧
      SameOutside [(s.tasks i).stackPhys, t] s.machine.mem
        (freeUserMemory (freeStackPage s.machine (s.tasks i)) (s.tasks i)).mem ∧
      load64 (freeUserMemory (freeStackPage s.machine (s.tasks i)) (s.tasks i)).mem t = t := by
  have hr := hs.root i hi
  have hst := shape_eq_some.mp (hs.owned.tree.linked.tableAt access_present.present
    (shape_eq_some.mpr hr) hat)
  obtain ⟨ht0, htpos, htlt⟩ := hs.owned.page t (by simp [hst])
  obtain ⟨hstack, hshape, hcritical⟩ := hs.stack_page hi hl
  have hout : SameOutside [(s.tasks i).stackPhys] s.machine.mem
      (freeStackPage s.machine (s.tasks i)).mem := by
    unfold freeStackPage
    split
    · exact .one hstack fun a ha => fill_outside (by omega)
    · exact fun _ _ => rfl
  have hL : Linked (shape use) (freeStackPage s.machine (s.tasks i)).mem :=
    (hs.owned.sameOutside hout (by simpa using hcritical)).tree.linked
  have hat' := tableAt_sameOutside hat hs.owned.tree.linked (shape_eq_some.mpr hr) hout
    (by simpa using Or.inr hshape)
  obtain ⟨htop, hsame, hlink⟩ := freeUserMemory_table hload hcode hL (shape_eq_some.mpr hr)
    (hs.owned.page _ (by simp [hr])).2.1.ne' hat' ht0 htpos.ne' htlt
  exact ⟨htop, hout.trans hsame, hlink⟩

end

/-- Such a process cannot end well: after its `sys_exit` the free list never ends, also when nobody
shared its address space. -/
theorem exit_loops_freeList {use : ℕ → Use} {fl : List ℕ} {s : Kernel} {c : ℕ} (hs : Safe use fl s)
    (hc : s.currentTask = some c) (hcn : c < s.numTasks) (hload : (s.tasks c).loadAddr = 0x400000)
    (hcode : 0 < (s.tasks c).codePages ∧ (s.tasks c).codePages ≤ 512)
    (hat : TableAt present s.machine.mem (s.tasks c).pml4Phys (trail 0x400000 3) t) :
    ¬ ∃ fl', Chain (load64 (sysExit s).machine.mem) 0 (sysExit s).machine.freeStack fl' := by
  have hst := hs.owned.tree.linked.tableAt access_present.present
    (shape_eq_some.mpr (hs.root c hcn)) hat
  obtain ⟨htop, -, hlink⟩ := hs.ended_table hcn (.inr hc) hload hcode hat
  rw [sysExit_eq hc]
  dsimp only
  rw [htop]
  rintro ⟨fl', hl⟩
  exact not_chain_of_selfLink (hs.owned.tree.aligned t _ _ hst).2.1.ne' hlink hl

end Ends

section Sample

/-- The init program of the sample boot is mapped page by page. -/
private theorem sample_opensOnly (ok : ℕ → Prop) :
    OpensOnly ok (bootMaps (sampleConfig sampleMap)).2 := by
  obtain ⟨x, r, use, fl, -, -, -, -, -, -, hframes, -⟩ :=
    boot_first sample_bootable (f := 0x14E000) (by decide)
  have hall : ∀ g ∈ usablePages 0x110000 sampleMap, g % 2 ^ 21 ≠ 0 ∧ g % 4096 = 0 := by decide
  intro p hp va ht
  obtain ⟨hlarge, hpage⟩ := hall p.2 (hframes _ (List.mem_map_of_mem hp))
  obtain ⟨-, hto⟩ := ht.small fun h => hlarge h.2
  rw [hto]
  unfold frameOf
  exact .inl (by omega)

/-- A thread of the sample boot ends, and its kernel stack is free. -/
theorem live_frames_not_free_sample : ∃ x0 y, kmain (sampleConfig sampleMap) = some x0 ∧
    Reach step (SoundSpare (sampleConfig sampleMap) samplePages) x0 y ∧ y.kernel.numTasks = 2 ∧
    y.kernel.live 0 ∧ ¬ y.kernel.live 1 ∧
    ∀ i < y.kernel.numTasks, y.kernel.live i → ∀ f, TaskFrame y.kernel i f →
      ¬ MetFree y.kernel.machine f := by
  obtain ⟨x, y, r, use, fl, hk, -, -, hstep, hy, hty, -, -, hstack, hcode, -, hsch⟩ := sample_thread
  have hty := (Option.some.inj hty).symm
  have hwait : (y.kernel.tasks 1).waitIdx = none := congrFun (congrArg TaskTable.waitIdx hty) 1
  obtain ⟨z, r1, hexit, -, htz⟩ := step_table quietPorts (r := .call 0 0 0 0 0) hy rfl
    (by rw [hty]; rfl) (fun _ _ _ _ hn => by cases hn)
  have hclone : SoundSpare (sampleConfig sampleMap) samplePages x
      (.trap quietPorts (.call 21 0 0 0 0)) :=
    ⟨fun _ _ _ => trivial, sparing_clone (sample_first hk), fun c _ p hp => by cases hp⟩
  have hend : SoundSpare (sampleConfig sampleMap) samplePages y
      (.trap quietPorts (.call 0 0 0 0 0)) := by
    refine ⟨fun _ c hc' => ?_, sparing_exit hsch.current (.inr hcode)
      (by rw [hstack]; exact (by decide : 0x14E000 < 0x150000)),
      fun c _ p hp => by cases hp⟩
    obtain rfl := Option.some.inj (hsch.current.symm.trans hc')
    exact ⟨.inr hcode, fun w _ hw => by cases hwait.symm.trans hw⟩
  have hrun := Reach.tail (.tail .refl hclone hstep) hend hexit
  have hstate (i : ℕ) := congrFun (congrArg TaskTable.state htz) i
  refine ⟨x, z, hk, hrun, congrArg TaskTable.num htz, ?_, ?_, (live_frames_not_free
    sample_bootable.goodBoot hk sample_sparingBoot (sample_opensOnly _) hrun).1⟩
  · have h0 : (z.kernel.tasks 0).state = .running := hstate 0
    simp [Kernel.live, h0]
  · have h1 : (z.kernel.tasks 1).state = .exited := hstate 1
    simp [Kernel.live, h1]

/-- A translation to an address that no 2 MiB page would lead to passes through a page table. -/
theorem exists_table {sh : Shape} {m : Mem} {r va pa : ℕ} (hL : Linked sh m)
    (hr : sh r = some (r, [])) (hw : walk present m va 3 r = some pa)
    (hpa : pa % 2 ^ 21 ≠ va % 2 ^ 21) : ∃ t, TableAt present m r (trail va 3) t := by
  obtain ⟨t, hat, he⟩ := hL.exists_third hr hw
  have hw1 := hat.walk_of_some (l := 1) (by rw [trail_length]) (by rw [trail_length]) hw
  cases hh : huge (entry m t (index 1 va)) with
  | true =>
    have hleaf : leaf 1 (entry m t (index 1 va)) va = pa := by simpa [walk, he, hh] using hw1
    refine absurd ?_ hpa
    rw [← hleaf]
    change (_ / 2 ^ 21 * 2 ^ 21 + va % 2 ^ 21) % 2 ^ 21 = va % 2 ^ 21
    omega
  | false => exact ⟨_, hat.next (index_lt 1 va) (by rw [trail_length]; decide) he (.inr hh)⟩

/-- The first task of the sample boot has a page table for the 2 MiB at its load address, and
creates a thread, which runs next. -/
private theorem sample_shared : ∃ x y z r t use fl, kmain (sampleConfig sampleMap) = some x ∧
    step x (.trap quietPorts (.call 11 0x4FC000 4096 2 0)) = some y ∧
    step y (.trap quietPorts (.call 21 0 0 0 0)) = some z ∧ z.phase = .user r ∧
    TaskTable.boot.step (.clone 0 0 0 0) = some z.kernel.table ∧ Safe use fl z.kernel ∧
    (z.kernel.tasks 0).loadAddr = 0x400000 ∧ (z.kernel.tasks 0).codePages = 1 ∧
    (z.kernel.tasks 1).pml4Phys = (z.kernel.tasks 0).pml4Phys ∧
    TableAt present z.kernel.machine.mem (z.kernel.tasks 0).pml4Phys (trail 0x400000 3) t := by
  obtain ⟨x, r, use, fl, hk, hp, ht, hs, hlen, -, -, hload, hcode⟩ :=
    boot_first sample_bootable (f := 0x14E000) (by decide)
  have hall : (usablePages 0x110000 sampleMap).length = 64 := by decide
  have hc : x.kernel.currentTask = some 0 := congrArg TaskTable.current ht
  have hn : x.kernel.numTasks = 1 := congrArg TaskTable.num ht
  obtain ⟨y, r1, hstep, hyp, hy, hmachine, -⟩ := step_mmap
    (.call 11 0x4FC000 4096 2 0) 0x4FC000 hs hp hn hc rfl rfl (by decide)
  obtain ⟨use1, fl1, hb, hmapped⟩ := mapOne_spec (v := 0x4FC000)
    (hs.owned.switch (x.kernel.tasks 0).pml4Phys) (hs.root 0 (by omega)) (by decide : 7 < 128)
    (by decide)
  have hwalk := hmapped (by omega) 0x4FC000 rfl
  have hsy : Safe use1 fl1 y.kernel := by
    rw [hy, hmachine]
    exact hs.took (hb.owned.switch _) hb.took
  have hlen1 := hb.took.length_le
  simp only [List.length_cons, List.length_nil] at hlen1
  obtain ⟨f1, fl2, rfl⟩ : ∃ f1 fl2, fl1 = f1 :: fl2 := List.exists_cons_of_length_pos (by omega)
  have hcy : y.kernel.currentTask = some 0 := by rw [hy, hc]
  have hny : y.kernel.numTasks = 1 := by rw [hy, hn]
  have hty : y.kernel.table = .boot := by
    rw [hy]
    exact ht
  obtain ⟨h, z, r2, use2, hclone, hzp, htz, hsz, hsame⟩ := step_clone quietPorts
    (.call 21 0 0 0 0) hsy hcy (by omega) hyp (by rw [hny]; decide) rfl rfl
  rw [hty] at htz
  have htask0 : (z.kernel.tasks 0).identity = (x.kernel.tasks 0).identity := by
    obtain ⟨st, rsp, he⟩ := hsame.tasks 0
    rw [he, hy]
    simp [addTask, hn, Task.identity]
  have htask1 : (z.kernel.tasks 1).pml4Phys = (x.kernel.tasks 0).pml4Phys := by
    obtain ⟨st, rsp, he⟩ := hsame.tasks 1
    rw [he, hy]
    simp [addTask, hn, newTask, ipcInitTask]
  simp only [Task.identity, Prod.mk.injEq] at htask0
  obtain ⟨-, hroot0, hload0, hcode0⟩ := htask0
  have hkept : walk present z.kernel.machine.mem 0x4FC000 3 (x.kernel.tasks 0).pml4Phys =
      some 0x14E000 := by
    have hreach : Reachable y := ⟨_, x, hk, .tail .refl trivial hstep⟩
    have hsch := (hreach.scheduled (by rw [hyp]; exact fun h => by cases h) hcy).1
    have hsound : SoundRequest y.kernel 0 (Input.trap quietPorts (.call 21 0 0 0 0)).request :=
      trivial
    obtain ⟨use3, fl3, -, -, heffect⟩ := hsy.step hsch hsound hclone
    change SpaceEffect y.kernel 0 use3 z.kernel (.call quietPorts (.clone 0 0 0 0)) at heffect
    have hsamewalk : walk present z.kernel.machine.mem 0x4FC000 3 (y.kernel.tasks 0).pml4Phys =
        walk present y.kernel.machine.mem 0x4FC000 3 (y.kernel.tasks 0).pml4Phys := by
      cases heffect with
      | same hch => exact hch.walks _ access_present 0 (by omega) _ fun hn => hn.2
      | mapped hch =>
        refine hch.walks _ access_present 0 (by omega) _ fun hn => ?_
        obtain ⟨-, p, hp, -⟩ := hn
        cases hp
    have hrooty : (y.kernel.tasks 0).pml4Phys = (x.kernel.tasks 0).pml4Phys := by rw [hy]
    rw [hrooty, hmachine, pagingSwitch_mem] at hsamewalk
    exact hsamewalk.trans hwalk
  have hnz : z.kernel.numTasks = 2 := congrArg TaskTable.num (Option.some.inj htz).symm
  obtain ⟨t, hat⟩ := exists_table hsz.owned.tree.linked
    (shape_eq_some.mpr (hroot0 ▸ hsz.root 0 (by omega))) hkept (by decide)
  have hregion : trail 0x4FC000 3 = trail 0x400000 3 := trail_region (by decide)
  rw [hregion, ← hroot0] at hat
  exact ⟨x, y, z, r2, t, use2, fl2, hk, hstep, hclone, hzp, htz, hsz, hload0.trans hload,
    hcode0.trans hcode, htask1.trans hroot0.symm, hat⟩

/-- The first task of that boot, were it current. -/
theorem exit_loops_freeList_sample : ∃ use fl s, Safe use fl s ∧ s.currentTask = some 0 ∧
    ¬ ∃ fl', Chain (load64 (sysExit s).machine.mem) 0 (sysExit s).machine.freeStack fl' := by
  obtain ⟨x, y, z, r, t, use, fl, -, -, -, -, htz, hs, hload, hcode, -, hat⟩ := sample_shared
  have htz := (Option.some.inj htz).symm
  have hn : 0 < z.kernel.numTasks := Nat.two_pos.trans_eq (congrArg TaskTable.num htz).symm
  have h0 : (z.kernel.tasks 0).state = .ready := congrFun (congrArg TaskTable.state htz) 0
  have hs0 : Safe use fl { z.kernel with currentTask := some 0 } := by
    refine ⟨hs.owned, fun i hi hl => hs.stack i hi (.inl ?_), hs.root⟩
    rcases hl with hl | hl
    · exact hl
    · obtain rfl := Option.some.inj hl
      simp [Kernel.live, h0]
  exact ⟨use, fl, _, hs0, rfl,
    exit_loops_freeList hs0 rfl hn hload (hcode.symm ▸ by decide) hat⟩

/-- The thread kills its parent: the page table that it runs on is the first page that the allocator
will hand out. -/
theorem kill_frees_shared_table : ∃ x y z w t, kmain (sampleConfig sampleMap) = some x ∧
    step x (.trap quietPorts (.call 11 0x4FC000 4096 2 0)) = some y ∧
    step y (.trap quietPorts (.call 21 0 0 0 0)) = some z ∧
    step z (.trap quietPorts (.call 13 1 0 0 0)) = some w ∧ 1 < w.kernel.numTasks ∧
    w.kernel.live 1 ∧ TaskFrame w.kernel 1 t ∧ MetFree w.kernel.machine t := by
  obtain ⟨x, y, z, r, t, use, fl, hk, hmmap, hclone, hzp, htz, hs, hload, hcode, hroot, hat⟩ :=
    sample_shared
  have htz := (Option.some.inj htz).symm
  have hn : z.kernel.numTasks = 2 := congrArg TaskTable.num htz
  have hc : z.kernel.currentTask = some 1 := congrArg TaskTable.current htz
  have hstate (i : ℕ) := congrFun (congrArg TaskTable.state htz) i
  have hlive0 : z.kernel.live 0 := by
    have h0 : (z.kernel.tasks 0).state = .ready := hstate 0
    simp [Kernel.live, h0]
  have hfind : z.kernel.findLive 1 = some 0 := by
    rw [← table_findLive, htz]
    rfl
  obtain ⟨htop, hsame, -⟩ := hs.ended_table (by omega) (.inl hlive0) hload (by omega) hat
  obtain ⟨w, r1, hkill, -, htw⟩ := step_table quietPorts (r := .call 13 1 0 0 0) hzp rfl
    (by rw [htz]; rfl) (fun _ _ _ _ hn => by cases hn)
  obtain ⟨k, hserve, hf⟩ := step_finish hkill
  have hserved : Served z (.call quietPorts (.kill 1)) k := serve_cases hserve
  cases hserved with
  | @call _ _ o ho =>
    have hkmachine : o.kernel.machine =
        freeUserMemory (freeStackPage z.kernel.machine (z.kernel.tasks 0)) (z.kernel.tasks 0) := by
      obtain rfl := Option.some.inj ho
      simp only [returnInt, SysOutcome.kernel, sysKill, hfind]
      rfl
    have hkslots : o.kernel.currentTask = some 1 ∧
        (o.kernel.tasks 1).stackPhys = (z.kernel.tasks 1).stackPhys ∧
        (o.kernel.tasks 1).pml4Phys = (z.kernel.tasks 0).pml4Phys := by
      obtain rfl := Option.some.inj ho
      simp only [returnInt, SysOutcome.kernel, sysKill, hfind]
      exact ⟨hc, by simp, by simpa using hroot⟩
    obtain ⟨hkc, hkstack, hkroot⟩ := hkslots
    obtain ⟨hfree, hmem⟩ := hf.machine
    have hlive1 : z.kernel.live 1 ∨ z.kernel.currentTask = some 1 := .inr hc
    obtain ⟨hs1, hshape1, -⟩ := hs.stack_page (by omega) hlive1
    obtain ⟨-, hshape0, -⟩ := hs.stack_page (by omega) (.inl hlive0)
    have hframe : SameOutside [(z.kernel.tasks 1).stackPhys] o.kernel.machine.mem
        w.kernel.machine.mem := by
      rcases hmem with hmem | ⟨c, r, hd, hmem⟩
      · rw [hmem]
        exact fun _ _ => rfl
      · obtain rfl := Option.some.inj (hkc.symm.trans hd)
        rw [hmem, hkstack]
        exact .one hs1 fun a ha => storeWords_outside (by omega)
    rw [hkmachine] at hframe hfree
    have hatw := tableAt_sameOutside hat hs.owned.tree.linked
      (shape_eq_some.mpr (hs.root 0 (by omega))) (hsame.trans hframe) (by simp [hshape0, hshape1])
    rw [← hkroot, ← hf.keepsSlots.pml4Phys 1] at hatw
    have hst := hs.owned.tree.linked.tableAt access_present.present
      (shape_eq_some.mpr (hs.root 0 (by omega))) hat
    have ht0 : t ≠ 0 := (hs.owned.tree.aligned t _ _ hst).2.1.ne'
    refine ⟨x, y, z, w, t, hk, hmmap, hclone, hkill, ?_, ?_, .table hatw, ?_⟩
    · rw [show w.kernel.numTasks = 2 from congrArg TaskTable.num htw]
      decide
    · have h1 : (w.kernel.tasks 1).state = .running := congrFun (congrArg TaskTable.state htw) 1
      simp [Kernel.live, h1]
    · rw [MetFree, hfree, htop]
      exact met_top ht0

end Sample

end Mukrn
