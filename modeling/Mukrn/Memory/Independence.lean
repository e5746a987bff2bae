import Mukrn.Memory.Boot

/-! Address spaces built from the boot template. Whatever sequence of table operations is run,
the tables of different roots stay apart, so that an operation under one root is not seen under
another. -/
namespace Mukrn
open ByteMemory PageTable LinkedStack Runs

def pageNocache : ℕ := 0x10

/-- The operations of `paging.c` that build and change address spaces. -/
inductive PagingOp where
  | clone
  | switch (root : ℕ)
  | map (virt phys flags : ℕ)
  | unmap (virt : ℕ)

/-- The machine and the roots that `paging_clone_kernel` has returned so far. -/
structure Spaces where
  machine : Machine
  roots : List ℕ

/-- The flags that callers pass to `map_page`. -/
def MapFlags (flags : ℕ) : Prop :=
  flags &&& (pagePresent ||| pageWritable ||| pageUser ||| pageNocache) = flags

instance (flags : ℕ) : Decidable (MapFlags flags) := by
  unfold MapFlags
  infer_instance

namespace Spaces

/-- Only produced roots are switched to, and tables are changed only under one of them. -/
def step (c : Spaces) : PagingOp → Option Spaces
  | .clone =>
    let (root, h) := pagingCloneKernel c.machine
    some ⟨h, if root = 0 then c.roots else root :: c.roots⟩
  | .switch root =>
    if root ∈ c.roots then some { c with machine := pagingSwitch c.machine root } else none
  | .map virt phys flags =>
    if c.machine.pagingRoot ∈ c.roots ∧ phys % 4096 = 0 ∧ phys < 2 ^ 64 ∧ MapFlags flags then
      some { c with machine := mapPage c.machine virt phys flags }
    else none
  | .unmap virt =>
    if c.machine.pagingRoot ∈ c.roots then some { c with machine := unmapPage c.machine virt }
    else none

theorem step_clone {c : Spaces} {r : ℕ} (hr : (pagingCloneKernel c.machine).1 = r) (h0 : r ≠ 0) :
    c.step .clone = some ⟨(pagingCloneKernel c.machine).2, r :: c.roots⟩ := by
  simp only [step, hr, if_neg h0]

theorem step_switch {c : Spaces} {r : ℕ} (hr : r ∈ c.roots) :
    c.step (.switch r) = some { c with machine := pagingSwitch c.machine r } := by
  simp only [step, if_pos hr]

theorem step_map {c : Spaces} {phys flags : ℕ} (virt : ℕ)
    (h : c.machine.pagingRoot ∈ c.roots ∧ phys % 4096 = 0 ∧ phys < 2 ^ 64 ∧ MapFlags flags) :
    c.step (.map virt phys flags) =
      some { c with machine := mapPage c.machine virt phys flags } := by
  simp only [step, if_pos h]

/-- What one operation does. -/
theorem step_cases {c c' : Spaces} {op : PagingOp} (hs : c.step op = some c') :
    c' = ⟨(pagingCloneKernel c.machine).2, if (pagingCloneKernel c.machine).1 = 0 then c.roots
      else (pagingCloneKernel c.machine).1 :: c.roots⟩ ∨
    (∃ root ∈ c.roots, c' = { c with machine := pagingSwitch c.machine root }) ∨
    (∃ virt phys flags, c.machine.pagingRoot ∈ c.roots ∧ phys % 4096 = 0 ∧ phys < 2 ^ 64 ∧
      MapFlags flags ∧ c' = { c with machine := mapPage c.machine virt phys flags }) ∨
    ∃ virt, c.machine.pagingRoot ∈ c.roots ∧
      c' = { c with machine := unmapPage c.machine virt } := by
  cases op with
  | clone => exact .inl (Option.some.inj hs).symm
  | switch root =>
    simp only [step] at hs
    split at hs
    next h => exact .inr (.inl ⟨root, h, (Option.some.inj hs).symm⟩)
    · cases hs
  | map virt phys flags =>
    simp only [step] at hs
    split at hs
    next h =>
      obtain ⟨hroot, hphys, hlt, hf⟩ := h
      exact .inr (.inr (.inl ⟨virt, phys, flags, hroot, hphys, hlt, hf, (Option.some.inj hs).symm⟩))
    · cases hs
  | unmap virt =>
    simp only [step] at hs
    split at hs
    next h => exact .inr (.inr (.inr ⟨virt, h, (Option.some.inj hs).symm⟩))
    · cases hs

/-- Where the boot loader and `pmm_init` leave the machine. -/
def boot (kernelEnd : ℕ) (entries : List E820Entry) (m : Mem) : Spaces :=
  ⟨pmmInit kernelEnd entries ⟨setupPaging m, 0, kernelPml4Template⟩, []⟩

end Spaces

/-- Every produced root owns its page. -/
structure Apart (use : ℕ → Use) (fl : List ℕ) (c : Spaces) : Prop where
  owned : Owned use fl c.machine
  roots : ∀ r ∈ c.roots, use r = .table r []

/-- What changing the tables of the active root leaves alone. -/
structure Local (c c' : Spaces) : Prop where
  walks : ∀ r ∈ c.roots, r ≠ c.machine.pagingRoot → ∀ ok, Access ok → ∀ va,
    walk ok c'.machine.mem va 3 r = walk ok c.machine.mem va 3 r
  template : ∀ a, 0x1000 ≤ a → a < 0x4000 → c'.machine.mem a = c.machine.mem a

section

variable {use : ℕ → Use} {fl : List ℕ} {c c' : Spaces}

theorem mapFlags_lt {flags : ℕ} (hf : MapFlags flags) : flags < 128 := by
  unfold MapFlags at hf
  rw [← hf]
  exact Nat.and_le_right.trans_lt (by decide)

/-- The pages of the template are no tables of a produced root. -/
private theorem template_page (ho : Owned use fl c.machine) {a : ℕ} (h1 : 0x1000 ≤ a)
    (h2 : a < 0x4000) : use (a / 4096 * 4096) = .template := by
  apply (ho.templateUse _).mp
  omega

private theorem Apart.template (ha : Apart use fl c) {r : ℕ} {m : Mem}
    (hm : WritesTables r use c.machine.mem m) {a : ℕ} (h1 : 0x1000 ≤ a) (h2 : a < 0x4000) :
    m a = c.machine.mem a := by
  have hu := template_page ha.owned h1 h2
  apply hm (a / 4096 * 4096) (by omega) (by omega) _ _ a (by omega) (by omega)
  · rw [hu]
    simp
  · rintro ⟨p, hp⟩
    rw [hu] at hp
    cases hp

private theorem Apart.clone (ha : Apart use fl c) :
    ∃ use' fl', Apart use' fl' ⟨(pagingCloneKernel c.machine).2,
      if (pagingCloneKernel c.machine).1 = 0 then c.roots
      else (pagingCloneKernel c.machine).1 :: c.roots⟩ := by
  rcases pagingCloneKernel_spec ha.owned with
    ⟨-, h0, use', ho, ht⟩ | ⟨r, use', fl', -, hr, hr0, -, hu, ho, ht, -⟩
  · refine ⟨use', [], ho, ?_⟩
    rw [if_pos h0]
    intro r hr
    exact ht.keeps_table ha.owned (ha.roots r hr)
  · refine ⟨use', fl', ho, ?_⟩
    rw [hr, if_neg hr0]
    intro r' hr'
    rcases List.mem_cons.mp hr' with rfl | hr'
    · exact hu
    · exact ht.keeps_table ha.owned (ha.roots r' hr')

private theorem Apart.map (ha : Apart use fl c) (hroot : c.machine.pagingRoot ∈ c.roots)
    {virt phys flags : ℕ} (hphys : phys % 4096 = 0) (hlt : phys < 2 ^ 64) (hf : MapFlags flags) :
    (∃ use' fl', Apart use' fl' { c with machine := mapPage c.machine virt phys flags }) ∧
      Local c { c with machine := mapPage c.machine virt phys flags } := by
  obtain ⟨use', fl', hp⟩ := mapPage_placed virt ha.owned (ha.roots _ hroot) hphys hlt
    (mapFlags_lt hf)
  generalize mapPage c.machine virt phys flags = h' at hp ⊢
  constructor
  · exact ⟨use', fl', hp.owned, fun r hr => hp.took.keeps_table ha.owned (ha.roots r hr)⟩
  · constructor
    · intro r hr hne ok hok va
      exact hp.walks ok hok r (shape_eq_some.mpr (ha.roots r hr)) va fun hn => hne hn.1
    · intro a h1 h2
      have hw : WritesTables c.machine.pagingRoot use c.machine.mem h'.mem :=
        fun f hf _ => hp.frame f hf
      exact ha.template hw h1 h2

private theorem Apart.unmap (ha : Apart use fl c) (hroot : c.machine.pagingRoot ∈ c.roots)
    (virt : ℕ) :
    Apart use fl { c with machine := unmapPage c.machine virt } ∧
      Local c { c with machine := unmapPage c.machine virt } := by
  have hu := unmapPage_spec ha.owned (ha.roots _ hroot) virt
  have hw := unmapPage_writes ha.owned (ha.roots _ hroot) virt
  generalize unmapPage c.machine virt = h' at hu hw ⊢
  constructor
  · exact ⟨hu.owned, ha.roots⟩
  · constructor
    · intro r hr hne ok hok va
      exact hu.walks ok hok r (shape_eq_some.mpr (ha.roots r hr)) va fun hn => hne hn.1
    · intro a h1 h2
      exact ha.template hw h1 h2

/-- One operation keeps the roots apart. -/
theorem Apart.step (ha : Apart use fl c) {op : PagingOp} (hs : c.step op = some c') :
    ∃ use' fl', Apart use' fl' c' := by
  rcases Spaces.step_cases hs with rfl | ⟨root, -, rfl⟩ |
    ⟨virt, phys, flags, hroot, hphys, hlt, hf, rfl⟩ | ⟨virt, hroot, rfl⟩
  · exact ha.clone
  · exact ⟨use, fl, ha.owned.switch root, ha.roots⟩
  · exact (ha.map hroot hphys hlt hf).1
  · exact ⟨use, fl, (ha.unmap hroot virt).1⟩

theorem boot_apart {kernelEnd : ℕ} {entries : List E820Entry} (hg : GoodMap entries) (m : Mem) :
    ∃ use fl, Apart use fl (.boot kernelEnd entries m) :=
  ⟨_, _, pmmInit_owned kernelEnd kernelPml4Template hg m, fun r hr => by cases hr⟩

theorem reach_apart {kernelEnd : ℕ} {entries : List E820Entry} {m : Mem} (hg : GoodMap entries)
    (hrun : Reach Spaces.step anyStep (.boot kernelEnd entries m) c) :
    ∃ use fl, Apart use fl c := by
  apply hrun.invariant (P := fun c => ∃ use fl, Apart use fl c) (boot_apart hg m)
  rintro c op c' ⟨use, fl, ha⟩ - hs
  exact ha.step hs

/-- A table reached from a produced root is recorded as one of that root. -/
theorem Apart.table (ha : Apart use fl c) {r t : ℕ} {p : List ℕ} (hr : r ∈ c.roots)
    (ht : TableAt present c.machine.mem r p t) : use t = .table r p :=
  shape_eq_some.mp (ha.owned.tree.linked.tableAt access_present.present
    (shape_eq_some.mpr (ha.roots r hr)) ht)

/-- Tables reached from different roots are different pages, none of them free or part of the
template, and changing one address space changes no translation of another one. -/
theorem spaces_independent {kernelEnd : ℕ} {entries : List E820Entry} {m : Mem} {c : Spaces}
    (hg : GoodMap entries) (hrun : Reach Spaces.step anyStep (.boot kernelEnd entries m) c) :
    (∃ fl, Chain (load64 c.machine.mem) 0 c.machine.freeStack fl ∧
      ∀ r ∈ c.roots, ∀ p t, TableAt present c.machine.mem r p t →
        t ∉ fl ∧ ¬ (0x1000 ≤ t ∧ t < 0x4000) ∧
        ∀ r' ∈ c.roots, r' ≠ r → ∀ p', ¬ TableAt present c.machine.mem r' p' t) ∧
    (∀ virt phys flags c', c.step (.map virt phys flags) = some c' → Local c c') ∧
    (∀ virt c', c.step (.unmap virt) = some c' → Local c c') := by
  obtain ⟨use, fl, ha⟩ := reach_apart hg hrun
  refine ⟨⟨fl, ha.owned.chain, ?_⟩, ?_, ?_⟩
  · intro r hr p t ht
    have hu := ha.table hr ht
    refine ⟨?_, ?_, ?_⟩
    · intro hm
      rw [(ha.owned.free t).mp hm] at hu
      cases hu
    · rintro ⟨h1, h2⟩
      have hal := ha.owned.page t (by rw [hu]; simp)
      have hT := template_page ha.owned h1 h2
      rw [show t / 4096 * 4096 = t by omega, hu] at hT
      cases hT
    · intro r' hr' hne p' ht'
      have hu' := ha.table hr' ht'
      rw [hu] at hu'
      cases hu'
      exact hne rfl
  · intro virt phys flags c' hs
    simp only [Spaces.step] at hs
    split at hs
    next h =>
      obtain rfl := Option.some.inj hs
      exact (ha.map h.1 h.2.1 h.2.2.1 h.2.2.2).2
    · cases hs
  · intro virt c' hs
    simp only [Spaces.step] at hs
    split at hs
    next h =>
      obtain rfl := Option.some.inj hs
      exact (ha.unmap h virt).2
    · cases hs

/-- Two address spaces, and a page mapped in the first one. -/
theorem spaces_independent_sample : ∃ entries c c' r r', GoodMap entries ∧
    Reach Spaces.step anyStep (.boot 0x110000 entries fun _ => 0) c ∧ c.roots = [r', r] ∧
    (∃ fl, Chain (load64 c.machine.mem) 0 c.machine.freeStack fl ∧ r ∉ fl ∧
      ∀ p, ¬ TableAt present c.machine.mem r' p r) ∧
    c.step (.map 0x40000000 0x300000 7) = some c' ∧ Local c c' := by
  have hg : GoodMap [⟨0x200000, 0x10000, 1⟩] :=
    ⟨by decide, List.pairwise_singleton _ _⟩
  obtain ⟨b, hb⟩ : ∃ b, b = Spaces.boot 0x110000 [⟨0x200000, 0x10000, 1⟩] fun _ => 0 := ⟨_, rfl⟩
  have hroots : b.roots = [] := by rw [hb]; rfl
  obtain ⟨h1, h2⟩ : (pagingCloneKernel b.machine).1 = 0x20F000 ∧
      (pagingCloneKernel (pagingCloneKernel b.machine).2).1 = 0x20C000 := by
    rw [hb]
    decide +kernel
  have hmem : 0x20F000 ∈ (0x20C000 :: 0x20F000 :: b.roots) := by simp
  have hrun : Reach Spaces.step anyStep b _ :=
    ((Reach.refl.tail trivial (Spaces.step_clone h1 (by decide))).tail trivial
      (Spaces.step_clone h2 (by decide))).tail trivial (Spaces.step_switch hmem)
  have hmap := Spaces.step_map (c := ⟨pagingSwitch (pagingCloneKernel
    (pagingCloneKernel b.machine).2).2 0x20F000, 0x20C000 :: 0x20F000 :: b.roots⟩) 0x40000000
    ⟨hmem, (by decide : 0x300000 % 4096 = 0), by decide, (by decide : MapFlags 7)⟩
  rw [hb] at hrun
  obtain ⟨⟨fl, hchain, htables⟩, hlocal, -⟩ := spaces_independent hg hrun
  rw [← hb] at hrun hchain htables hlocal
  obtain ⟨hfree, -, hother⟩ := htables 0x20F000 hmem [] _ .root
  refine ⟨_, _, _, 0x20F000, 0x20C000, hg, hb ▸ hrun, by rw [hroots], ⟨fl, hchain, hfree, ?_⟩, hmap,
    hlocal _ _ _ _ hmap⟩
  exact hother _ List.mem_cons_self (by decide)

end

section Overlap

variable {P Q R : ℕ} (hP : P % 4096 = 0 ∧ 0 < P ∧ P < 2 ^ 64)
  (hQ : Q % 4096 = 0 ∧ 0 < Q ∧ Q < 2 ^ 64)
  (hR : R % 4096 = 0 ∧ 0 < R ∧ R < 2 ^ 64) (hPQ : P ≠ Q) (hQR : Q ≠ R) (hPR : P ≠ R)
include hP hQ hR hPQ hQR hPR

/-- A free list that is a cycle of three pages: a clone takes all three and ends where it
began. -/
private theorem clone_cycle {h : Machine} (htop : h.freeStack = R) (h1 : load64 h.mem R = Q)
    (h2 : load64 h.mem Q = P) (h3 : load64 h.mem P = R) :
    (pagingCloneKernel h).1 = R ∧ (pagingCloneKernel h).2.freeStack = R := by
  have hkeep (h : Machine) {f g : ℕ} (hf : f % 4096 = 0) (hg : g % 4096 = 0) (hne : g ≠ f) :
      load64 (h.take f).mem g = load64 h.mem g :=
    load_congr fun i hi => h.take_outside (by omega)
  have ha1 : pmmAllocPage h = (R, h.take R) := pmmAllocPage_taken htop hR.2.1.ne'
  have ha2 : pmmAllocPage (h.take R) = (Q, (h.take R).take Q) :=
    pmmAllocPage_taken h1 hQ.2.1.ne'
  have ha3 : pmmAllocPage ((h.take R).take Q) = (P, ((h.take R).take Q).take P) :=
    pmmAllocPage_taken ((hkeep h hR.1 hQ.1 hQR).trans h2) hP.2.1.ne'
  have hlast : (((h.take R).take Q).take P).freeStack = R :=
    (hkeep (h.take R) hQ.1 hP.1 hPQ).trans ((hkeep h hR.1 hP.1 hPR).trans h3)
  have hne : ¬ (R = 0 ∨ Q = 0 ∨ P = 0) := by omega
  simp only [pagingCloneKernel, ha1, ha2, ha3, if_neg hne, true_and]
  exact hlast

/-- Three pages pushed twice in the same order form such a cycle. -/
private theorem pushed_cycle (h : Machine) :
    let h' := pmmFreePages h [P, Q, R, P, Q, R]
    h'.freeStack = R ∧ load64 h'.mem R = Q ∧ load64 h'.mem Q = P ∧ load64 h'.mem P = R := by
  have hlink (h : Machine) {f : ℕ} (hf : h.freeStack < 2 ^ 64) :
      load64 (pmmFreePage h f).mem f = h.freeStack := load64_store64 hf
  have hkeep (h : Machine) {f g : ℕ} (hf : f % 4096 = 0) (hg : g % 4096 = 0) (hne : g ≠ f) :
      load64 (pmmFreePage h f).mem g = load64 h.mem g := load_store_outside (by omega)
  obtain ⟨h3, htop3, hall⟩ : ∃ h3, Machine.freeStack h3 = R ∧
      pmmFreePages h [P, Q, R, P, Q, R] = pmmFreePage (pmmFreePage (pmmFreePage h3 P) Q) R :=
    ⟨pmmFreePages h [P, Q, R], rfl, rfl⟩
  rw [hall]
  refine ⟨rfl, ?_, ?_, ?_⟩
  · exact hlink _ hQ.2.2
  · rw [hkeep _ hR.1 hQ.1 hQR]
    exact hlink _ hP.2.2
  · rw [hkeep _ hR.1 hP.1 hPR, hkeep _ hQ.1 hP.1 hPQ, hlink _ (htop3 ▸ hR.2.2), htop3]

end Overlap

/-- A memory map that reports three pages twice. -/
private def overlapping : List E820Entry := [⟨0x200000, 0x3000, 1⟩, ⟨0x200000, 0x3000, 1⟩]

/-- With an overlapping memory map the first produced root is free. -/
theorem overlapping_map_frees_root : ∃ entries c,
    Reach Spaces.step anyStep (.boot 0x110000 entries fun _ => 0) c ∧
    c.machine.freeStack ≠ 0 ∧ c.machine.freeStack ∈ c.roots := by
  have hpages : usablePages 0x110000 overlapping =
      [0x200000, 0x201000, 0x202000, 0x200000, 0x201000, 0x202000] := by decide +kernel
  obtain ⟨R, hR⟩ : ∃ R, R = 0x202000 := ⟨_, rfl⟩
  rw [← hR] at hpages
  have hpush := pushed_cycle (P := 0x200000) (Q := 0x201000) (R := R) (by decide)
    (by decide) (by omega) (by decide) (by omega) (by omega)
    ⟨setupPaging fun _ => 0, 0, kernelPml4Template⟩
  rw [← hpages, ← pmmInit_eq] at hpush
  obtain ⟨htop, h1, h2, h3⟩ := hpush
  obtain ⟨hroot, hfree⟩ := clone_cycle (by decide) (by decide) (by omega) (by decide) (by omega)
    (by omega) htop h1 h2 h3
  have hstep := Spaces.step_clone (c := .boot 0x110000 overlapping fun _ => 0) hroot (by omega)
  refine ⟨overlapping, _, .tail .refl trivial hstep, ?_, List.mem_cons.mpr (.inl hfree)⟩
  intro h0
  have hz : R = 0 := hfree.symm.trans h0
  omega

end Mukrn
