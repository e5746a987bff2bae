import Mukrn.Memory.Allocator
import Mukrn.Memory.Boot

/-! The firmware's memory map and the region the boot tables map. What `pmm_init` threads into the
free list is what the allocator returns later. -/
namespace Mukrn
open ByteMemory Runs

/-- The end of the region `setup_paging` maps: 512 pages of 2 MiB. -/
def bootMapped : ℕ := 512 * 2 ^ 21

/-- The usable pages of an entry end inside the mapped region. -/
def E820Entry.Inside (e : E820Entry) : Prop :=
  ∀ start finish, pmmRange e = some (start, finish) → start < finish → finish ≤ bootMapped

section Range

variable {kernelEnd : ℕ} {e : E820Entry} {start finish a : ℕ}

theorem pmmRange_aligned (h : pmmRange e = some (start, finish)) :
    start % 4096 = 0 ∧ finish % 4096 = 0 := by
  obtain ⟨low, -, -, -, hs, hf⟩ := pmmRange_spec h
  omega

theorem mem_entryPages_iff (hr : pmmRange e = some (start, finish)) :
    a ∈ entryPages kernelEnd e ↔
      a ∈ pageCursor start finish ∧ pmmReserved kernelEnd a = false := by
  simp only [entryPages, hr, List.mem_filter, Bool.not_eq_true']

/-- The last page of a range is pushed when it lies beyond the kernel image. -/
theorem last_mem_entryPages (kernelEnd : ℕ) (hr : pmmRange e = some (start, finish))
    (hlt : start < finish)
    (hend : kernelEnd ≤ finish - 4096) (hlow : 0x100000 ≤ finish - 4096) :
    finish - 4096 ∈ entryPages kernelEnd e := by
  obtain ⟨hs, hf⟩ := pmmRange_aligned hr
  rw [mem_entryPages_iff hr]
  constructor
  · apply mem_pageCursor_of <;> omega
  · have h1 : ¬ finish - 4096 < 0x4000 := by omega
    have h2 : ¬ finish - 4096 < 0x8600 := by omega
    have h3 : ¬ finish - 4096 < kernelEnd := by omega
    simp [pmmReserved, h1, h2, h3]

/-- The pages of an entry inside the mapped region are proper pages of that region. -/
theorem E820Entry.Inside.page (hin : e.Inside) (ha : a ∈ entryPages kernelEnd e) :
    a % 4096 = 0 ∧ 0x100000 ≤ a ∧ a + 4096 ≤ bootMapped := by
  cases hr : pmmRange e with
  | none =>
    rw [entryPages, hr] at ha
    cases ha
  | some range =>
    obtain ⟨start, finish⟩ := range
    obtain ⟨hs, hf⟩ := pmmRange_aligned hr
    obtain ⟨hc, -⟩ := (mem_entryPages_iff hr).mp ha
    obtain ⟨hge, hmod, hlt⟩ := mem_pageCursor hc
    have hfin := hin start finish hr (by omega)
    obtain ⟨low, hlow, -, hhigh, hstart, hfinish⟩ := pmmRange_spec hr
    unfold bootMapped at hfin ⊢
    -- a start that wraps to zero would come with an end beyond the region
    have hlow : 0x100000 ≤ start := by omega
    refine ⟨by omega, by omega, by omega⟩

end Range

/-- The top of the free list and the links of the given pages stay among these pages. -/
structure ClosedLinks (pages : List ℕ) (h : Machine) : Prop where
  top : h.freeStack = 0 ∨ h.freeStack ∈ pages
  link : ∀ p ∈ pages, load64 h.mem p = 0 ∨ load64 h.mem p ∈ pages

section Closed

variable {pages : List ℕ} {h : Machine} (hpage : ∀ p ∈ pages, p % 4096 = 0 ∧ p < 2 ^ 64)
include hpage

theorem ClosedLinks.free (hc : ClosedLinks pages h) {f : ℕ} (hf : f % 4096 = 0) :
    ClosedLinks (f :: pages) (pmmFreePage h f) := by
  have hlt : h.freeStack < 2 ^ 64 := by
    rcases hc.top with h0 | hm
    · rw [h0]
      decide
    · exact (hpage _ hm).2
  constructor
  · exact .inr List.mem_cons_self
  · intro p hp
    simp only [List.mem_cons]
    by_cases hpf : p = f
    · subst hpf
      have hl : load64 (pmmFreePage h p).mem p = h.freeStack := load64_store64 hlt
      rw [hl]
      exact hc.top.imp_right .inr
    · have hp := (List.mem_cons.mp hp).resolve_left hpf
      have hal := hpage p hp
      have hl : load64 (pmmFreePage h f).mem p = load64 h.mem p := load_store_outside (by omega)
      rw [hl]
      exact (hc.link p hp).imp_right .inr

theorem ClosedLinks.take (hc : ClosedLinks pages h) {f : ℕ} (hf : f ∈ pages) :
    ClosedLinks pages (h.take f) := by
  constructor
  · exact hc.link f hf
  · intro p hp
    by_cases hpf : p = f
    · subst hpf
      exact .inl (load64_fill_zero (Nat.le_refl p) (by omega))
    · have h1 := hpage p hp
      have h2 := hpage f hf
      have hl : load64 (h.take f).mem p = load64 h.mem p := by
        apply load_congr
        intro i hi
        apply h.take_outside
        omega
      rw [hl]
      exact hc.link p hp

theorem ClosedLinks.step {c c' : Client} {op : PmmOp} (hc : ClosedLinks pages c.machine)
    (hheld : ∀ f ∈ c.held, f ∈ pages) (hop : ∀ a b, op ≠ .write a b) (hs : c.step op = some c') :
    ClosedLinks pages c'.machine ∧ ∀ f ∈ c'.held, f ∈ pages := by
  cases op with
  | alloc =>
    by_cases h0 : c.machine.freeStack = 0
    · simp only [Client.step, pmmAllocPage, h0, if_true, Option.some.injEq] at hs
      subst hs
      exact ⟨hc, hheld⟩
    · have hf := hc.top.resolve_left h0
      simp only [Client.step, pmmAllocPage, if_neg h0, Option.some.injEq] at hs
      subst hs
      constructor
      · exact hc.take hpage hf
      · intro f hm
        rcases Finset.mem_insert.mp hm with rfl | hm
        · exact hf
        · exact hheld f hm
  | free f =>
    simp only [Client.step] at hs
    split at hs
    next hf =>
      obtain rfl := Option.some.inj hs
      have hmem := hheld f hf
      have hfree := hc.free hpage (hpage f hmem).1
      have hsub {g : ℕ} (hg : g ∈ f :: pages) : g ∈ pages := by
        rcases List.mem_cons.mp hg with rfl | hg
        · exact hmem
        · exact hg
      constructor
      · constructor
        · exact hfree.top.imp_right hsub
        · intro p hp
          exact (hfree.link p (List.mem_cons_of_mem f hp)).imp_right hsub
      · intro g hg
        exact hheld g (Finset.mem_of_mem_erase hg)
    · cases hs
  | write a b => exact absurd rfl (hop a b)

end Closed

theorem pmmFreePages_closed {h : Machine} (h0 : h.freeStack = 0) {pages : List ℕ}
    (hpage : ∀ p ∈ pages, p % 4096 = 0 ∧ p < 2 ^ 64) :
    ClosedLinks pages.reverse (pmmFreePages h pages) := by
  induction pages using List.reverseRecOn with
  | nil => exact ⟨.inl h0, fun p hp => by cases hp⟩
  | append_singleton pages f ih =>
    have hpage' : ∀ p ∈ pages.reverse, p % 4096 = 0 ∧ p < 2 ^ 64 := by
      intro p hp
      exact hpage p (by simp [List.mem_reverse.mp hp])
    rw [pmmFreePages_append, List.reverse_append]
    exact (ih fun p hp => hpage p (by simp [hp])).free hpage' (hpage f (by simp)).1

/-- Pages threaded into an empty list, each once, are the free ones. -/
theorem pmmFreePages_represents {h : Machine} (h0 : h.freeStack = 0) {pages : List ℕ}
    (hpage : ∀ f ∈ pages, f % 4096 = 0 ∧ 0 < f ∧ f < 2 ^ 64) (hnd : pages.Nodup) :
    Represents ⟨pmmFreePages h pages, ∅⟩ pages.reverse (Pool.start pages.toFinset) := by
  have hempty : FreeList h [] := ⟨h0, List.nodup_nil, fun f hf => by cases hf⟩
  have hpush := hempty.pushAll (fun f hf => ⟨⟨(hpage f hf).1, (hpage f hf).2.2⟩, (hpage f hf).2.1,
    List.not_mem_nil⟩) hnd
  rw [List.append_nil] at hpush
  exact ⟨hpush, fun f => by simp [Pool.start], rfl⟩

/-- Operations that write into allocated pages only where no page was reported twice. -/
def Tidy (pages : List ℕ) (_ : Client) (op : PmmOp) : Prop :=
  pages.Nodup ∨ ∀ a b, op ≠ .write a b

/-- The allocator only returns pages that were threaded into its list. -/
theorem pmmFreePages_returns {h : Machine} (h0 : h.freeStack = 0) {pages : List ℕ}
    (hpage : ∀ f ∈ pages, f % 4096 = 0 ∧ 0 < f ∧ f < 2 ^ 64) {c : Client}
    (hc : Reach Client.step (Tidy pages) ⟨pmmFreePages h pages, ∅⟩ c) :
    (pmmAllocPage c.machine).1 = 0 ∨ (pmmAllocPage c.machine).1 ∈ pages := by
  by_cases hnd : pages.Nodup
  · have hall : ∀ f ∈ pages.toFinset, f % 4096 = 0 ∧ 0 < f ∧ f < 2 ^ 64 := by
      intro f hf
      exact hpage f (List.mem_toFinset.mp hf)
    obtain ⟨fl, p', hr⟩ := (pmmFreePages_represents h0 hpage hnd).reach hall hc
    rcases hr.pmmAllocPage with ⟨heq, -⟩ | ⟨f, -, -, heq, -, hf⟩
    · left
      rw [heq]
    · right
      rw [heq]
      exact List.mem_toFinset.mp ((p'.mem_iff f).mpr (.inl hf))
  · -- without writes the links of the pages only ever lead to these pages
    have hpage' : ∀ f ∈ pages.reverse, f % 4096 = 0 ∧ f < 2 ^ 64 := by
      intro f hf
      have hf := hpage f (List.mem_reverse.mp hf)
      exact ⟨hf.1, hf.2.2⟩
    have hstart : ClosedLinks pages.reverse (pmmFreePages h pages) ∧
        ∀ f ∈ (∅ : Finset ℕ), f ∈ pages.reverse :=
      ⟨pmmFreePages_closed h0 fun f hf => hpage' f (List.mem_reverse.mpr hf), by simp⟩
    obtain ⟨hclosed, -⟩ := hc.invariant (P := fun c => ClosedLinks pages.reverse c.machine ∧
      ∀ f ∈ c.held, f ∈ pages.reverse) hstart (by
        rintro c op c' ⟨hcl, hheld⟩ hok hs
        exact hcl.step hpage' hheld (hok.resolve_left hnd) hs)
    have htop := hclosed.top
    unfold pmmAllocPage
    split
    · exact .inl rfl
    next hne => exact .inr (List.mem_reverse.mp (htop.resolve_left hne))

/-- What `pmm_init` dereferences are the pages it pushes. They lie in the region mapped at boot, and
with them every page the allocator returns later, exactly when no usable entry reaches beyond it. -/
theorem pmmInit_inside_iff {kernelEnd : ℕ} (hk : kernelEnd ≤ bootMapped) (entries : List E820Entry)
    {h : Machine} (h0 : h.freeStack = 0) :
    pmmInit kernelEnd entries h = pmmFreePages h (usablePages kernelEnd entries) ∧
    (((∀ a ∈ usablePages kernelEnd entries, a + 8 ≤ bootMapped) ∧
      ∀ c, Reach Client.step (Tidy (usablePages kernelEnd entries))
        ⟨pmmInit kernelEnd entries h, ∅⟩ c → (pmmAllocPage c.machine).1 < bootMapped) ↔
      ∀ e ∈ entries, e.Inside) := by
  refine ⟨pmmInit_eq kernelEnd entries h, ?_⟩
  constructor
  · rintro ⟨hinside, -⟩ e he start finish hr hlt
    by_contra hbeyond
    obtain ⟨-, hf⟩ := pmmRange_aligned hr
    unfold bootMapped at hk hinside hbeyond
    have hlast := last_mem_entryPages kernelEnd hr hlt (by omega) (by omega)
    have hin := hinside _ (List.mem_flatMap.mpr ⟨e, he, hlast⟩)
    omega
  · intro hin
    have hpage {a : ℕ} (ha : a ∈ usablePages kernelEnd entries) :
        a % 4096 = 0 ∧ 0x100000 ≤ a ∧ a + 4096 ≤ bootMapped := by
      obtain ⟨e, he, ha⟩ := List.mem_flatMap.mp ha
      exact (hin e he).page ha
    constructor
    · intro a ha
      have := (hpage ha).2.2
      omega
    · intro c hc
      rw [pmmInit_eq] at hc
      have hproper : ∀ f ∈ usablePages kernelEnd entries, f % 4096 = 0 ∧ 0 < f ∧ f < 2 ^ 64 := by
        intro f hf
        have hf := hpage hf
        unfold bootMapped at hf
        omega
      rcases pmmFreePages_returns h0 hproper hc with hz | hm
      · rw [hz]
        decide
      · have := (hpage hm).2.2
        omega

theorem pmmInit_inside_iff_sample : ∃ kernelEnd entries h, kernelEnd ≤ bootMapped ∧
    Machine.freeStack h = 0 ∧ (∀ e ∈ entries, E820Entry.Inside e) ∧
    ∀ c, Reach Client.step (Tidy (usablePages kernelEnd entries))
      ⟨pmmInit kernelEnd entries h, ∅⟩ c → (pmmAllocPage c.machine).1 < bootMapped := by
  have hin : ∀ e ∈ [E820Entry.mk 0x110000 0x40000 1], e.Inside := by
    intro e he start finish hr _
    rw [List.mem_singleton.mp he] at hr
    obtain ⟨-, rfl⟩ := Prod.mk.inj (Option.some.inj hr)
    decide
  have hk : 0x110000 ≤ bootMapped := by decide
  exact ⟨0x110000, _, ⟨fun _ => 0, 0, 0⟩, hk, rfl, hin,
    ((pmmInit_inside_iff hk _ rfl).2.mpr hin).2⟩

/-- A machine with two gigabytes: pages beyond the first are dereferenced. -/
theorem pmmInit_beyond_map : ∃ entries a, a ∈ usablePages 0x110000 entries ∧ bootMapped ≤ a := by
  have hr : pmmRange ⟨0x100000, 0x7FF00000, 1⟩ = some (0x100000, 0x80000000) := rfl
  have hlast := last_mem_entryPages 0x110000 hr (by decide) (by decide) (by decide)
  exact ⟨[⟨0x100000, 0x7FF00000, 1⟩], _, List.mem_flatMap.mpr ⟨_, List.mem_singleton_self _, hlast⟩,
    by decide⟩

/-- The address lies in the entry. -/
def E820Entry.Covers (e : E820Entry) (a : ℕ) : Prop := e.base ≤ a ∧ a < e.base + e.len

/-- The whole page lies in a usable entry. -/
def E820Entry.Offers (e : E820Entry) (a : ℕ) : Prop :=
  e.type = 1 ∧ e.base ≤ a ∧ a + 4096 ≤ e.base + e.len

section Usable

variable {kernelEnd a : ℕ} {entries : List E820Entry}

/-- Rounding and clamping leave exactly the pages that the entry offers above the kernel. -/
theorem mem_entryPages_iff_offers (hk : 0x100000 ≤ kernelEnd) {e : E820Entry}
    (hb : e.type = 1 → e.base + e.len < 2 ^ 64 - 4096) :
    a ∈ entryPages kernelEnd e ↔ a % 4096 = 0 ∧ kernelEnd ≤ a ∧ e.Offers a := by
  constructor
  · intro ha
    obtain ⟨ht, hal, hlow, hlo, hhi⟩ := mem_entryPages hb ha
    refine ⟨hal, ?_, ht, hlo, hhi⟩
    unfold entryPages at ha
    split at ha
    · cases ha
    · have hres := (List.mem_filter.mp ha).2
      simp only [pmmReserved, Bool.not_eq_true', Bool.or_eq_false_iff, Bool.and_eq_false_iff,
        decide_eq_false_iff_not] at hres
      omega
  · rintro ⟨hal, hend, ht, hlo, hhi⟩
    have hb := hb ht
    have hlow : max 0x100000 e.base < (e.base + e.len) % 2 ^ 64 := by omega
    cases hr : pmmRange e with
    | none =>
      simp only [pmmRange] at hr
      rw [if_neg (by split <;> omega)] at hr
      cases hr
    | some range =>
      obtain ⟨start, finish⟩ := range
      obtain ⟨low, hmax, -, -, hs, hf⟩ := pmmRange_spec hr
      rw [mem_entryPages_iff hr]
      constructor
      · apply mem_pageCursor_of <;> omega
      · simp only [pmmReserved, Bool.or_eq_false_iff, Bool.and_eq_false_iff,
          decide_eq_false_iff_not]
        omega

/-- Entries that share no address share no page. -/
theorem usablePages_nodup (hb : ∀ e ∈ entries, e.type = 1 → e.base + e.len < 2 ^ 64 - 4096)
    (hdisj : entries.Pairwise fun e e' => e.type = 1 → e'.type = 1 →
      ∀ x, ¬ (e.Covers x ∧ e'.Covers x)) : (usablePages kernelEnd entries).Nodup := by
  refine List.nodup_flatMap.mpr ⟨fun e _ => entryPages_nodup kernelEnd e, ?_⟩
  refine hdisj.imp_of_mem ?_
  intro e e' he he' hd a ha ha'
  obtain ⟨ht, -, -, hlo, hhi⟩ := mem_entryPages (hb e he) ha
  obtain ⟨ht', -, -, hlo', hhi'⟩ := mem_entryPages (hb e' he') ha'
  exact hd ht ht' a ⟨⟨hlo, by omega⟩, ⟨hlo', by omega⟩⟩

/-- After `pmm_init` the free list holds every aligned page that lies in a usable entry and not
below the end of the kernel exactly once, and nothing else. -/
theorem pmmInit_usable (hk : 0x100000 ≤ kernelEnd)
    (hb : ∀ e ∈ entries, e.type = 1 → e.base + e.len < 2 ^ 64 - 4096)
    (hdisj : entries.Pairwise fun e e' => e.type = 1 → e'.type = 1 →
      ∀ x, ¬ (e.Covers x ∧ e'.Covers x))
    {h : Machine} (h0 : h.freeStack = 0) :
    ∃ fl, FreeList (pmmInit kernelEnd entries h) fl ∧ fl.Nodup ∧
      ∀ a, a ∈ fl ↔ a % 4096 = 0 ∧ kernelEnd ≤ a ∧ ∃ e ∈ entries, e.Offers a := by
  have hmem (a : ℕ) : a ∈ usablePages kernelEnd entries ↔
      a % 4096 = 0 ∧ kernelEnd ≤ a ∧ ∃ e ∈ entries, e.Offers a := by
    rw [usablePages, List.mem_flatMap]
    constructor
    · rintro ⟨e, he, ha⟩
      obtain ⟨hal, hend, hoff⟩ := (mem_entryPages_iff_offers hk (hb e he)).mp ha
      exact ⟨hal, hend, e, he, hoff⟩
    · rintro ⟨hal, hend, e, he, hoff⟩
      exact ⟨e, he, (mem_entryPages_iff_offers hk (hb e he)).mpr ⟨hal, hend, hoff⟩⟩
  have hpage : ∀ f ∈ usablePages kernelEnd entries, f % 4096 = 0 ∧ 0 < f ∧ f < 2 ^ 64 := by
    intro f hf
    obtain ⟨hal, hend, e, he, ht, -, hhi⟩ := (hmem f).mp hf
    have hlt := hb e he ht
    omega
  have hrep := pmmFreePages_represents h0 hpage (usablePages_nodup hb hdisj)
  rw [← pmmInit_eq] at hrep
  refine ⟨_, hrep.list, hrep.list.nodup, fun a => ?_⟩
  rw [List.mem_reverse]
  exact hmem a

/-- Two entries out of order that are not aligned, and a kernel that ends inside a page. -/
theorem pmmInit_usable_sample : ∃ entries fl,
    entries = [E820Entry.mk 0x200100 0x3000 1, E820Entry.mk 0x10F000 0x4000 1] ∧
      FreeList (pmmInit 0x110800 entries ⟨fun _ => 0, 0, 0⟩) fl ∧ fl.Nodup ∧
      0x111000 ∈ fl ∧ 0x201000 ∈ fl ∧ 0x110000 ∉ fl ∧ 0x203000 ∉ fl := by
  obtain ⟨entries, he⟩ : ∃ entries,
    entries = [E820Entry.mk 0x200100 0x3000 1, E820Entry.mk 0x10F000 0x4000 1] := ⟨_, rfl⟩
  have hb : ∀ e ∈ entries, e.type = 1 → e.base + e.len < 2 ^ 64 - 4096 := by simp [he]
  have hdisj : entries.Pairwise fun e e' => e.type = 1 → e'.type = 1 →
      ∀ x, ¬ (e.Covers x ∧ e'.Covers x) := by
    simp only [he, List.pairwise_cons, E820Entry.Covers]
    simp
    omega
  have hk : 0x100000 ≤ 0x110800 := by decide
  obtain ⟨fl, hfl, hnd, hmem⟩ := pmmInit_usable hk hb hdisj (h := ⟨fun _ => 0, 0, 0⟩) rfl
  refine ⟨entries, fl, he, hfl, hnd, ?_⟩
  simp [hmem, he, E820Entry.Offers]

end Usable

end Mukrn
