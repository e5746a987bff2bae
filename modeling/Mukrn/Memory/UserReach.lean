import Mukrn.Memory.Unmap

/-! The part of an address space that user mode can reach: in the address spaces that the paging
operations build, the first gigabyte is all that a process can ever use. -/
namespace Mukrn
open ByteMemory PageTable Runs

section Steps

variable {use : ℕ → Use} {fl : List ℕ} {h : Machine}

/-- `unmap_page` clears leaves only. -/
theorem unmapPage_links (ho : Owned use fl h) (hr : use h.pagingRoot = .table h.pagingRoot [])
    (virt : ℕ) : LinksKept True (shape use) h.mem (unmapPage h virt).mem := by
  have hL := ho.tree.linked
  rcases unmapPage_tables ho hr virt with hsame | ⟨d, t, hat, hd, heq⟩
  · exact .of_eq fun t x ht i hi =>
      entry_of_page (hsame t x.1 x.2 (shape_eq_some.mp ht)) hi
  · have hst := hL.tableAt access_present.present (shape_eq_some.mpr hr) hat
    have hlen := trail_length virt d
    rw [heq]
    refine LinksKept.set True hL hst (index_lt _ virt) (clearPresent_lt _ (load64_lt _ _))
      (by omega) fun h2 => ⟨trivial, ?_⟩
    obtain rfl : d = 2 := by omega
    obtain ⟨-, -, hh⟩ := hd.resolve_right (by decide)
    exact huge_clearPresent hh

/-- A copy of the template leaves the tables that were there alone. -/
theorem pagingCloneKernel_links (ho : Owned use fl h) :
    LinksKept True (shape use) h.mem (pagingCloneKernel h).2.mem := by
  refine .of_eq fun t x ht i hi => ?_
  have ht : use t = .table x.1 x.2 := shape_eq_some.mp ht
  have hne : use t ≠ .free := by
    rw [ht]
    simp
  have hpage := ho.page t (by rw [ht]; simp)
  exact entry_of_page (fun a h1 h2 => pagingCloneKernel_keeps ho hpage.1 hne h1 h2) hi

end Steps

section Spaces

variable {use : ℕ → Use} {fl : List ℕ} {c c' : Spaces}

/-- No operation opens more than the first gigabyte to user mode, or closes it. -/
theorem Apart.step_lowOpen (ha : Apart use fl c) (hlow : ∀ r ∈ c.roots, LowOpen c.machine.mem r)
    {op : PagingOp} (hs : c.step op = some c') : ∀ r ∈ c'.roots, LowOpen c'.machine.mem r := by
  have hL := ha.owned.tree.linked
  have hshape (r : ℕ) (hr : r ∈ c.roots) := shape_eq_some.mpr (ha.roots r hr)
  have hkept {m' : Mem} {large : Prop} (hk : LinksKept large (shape use) c.machine.mem m') (r : ℕ)
      (hr : r ∈ c.roots) : LowOpen m' r := (hlow r hr).of_links hk hL (hshape r hr)
  rcases Spaces.step_cases hs with rfl | ⟨root, -, rfl⟩ |
    ⟨virt, phys, flags, hroot, hphys, hlt, hf, rfl⟩ | ⟨virt, hroot, rfl⟩
  · intro r hr
    by_cases h0 : (pagingCloneKernel c.machine).1 = 0
    · rw [if_pos h0] at hr
      exact hkept (pagingCloneKernel_links ha.owned) r hr
    · rw [if_neg h0] at hr
      rcases List.mem_cons.mp hr with rfl | hr
      · obtain ⟨f2, f3, hc⟩ := pagingCloneKernel_copied ha.owned h0
        exact hc.lowOpen
      · exact hkept (pagingCloneKernel_links ha.owned) r hr
  · exact hlow
  · have hk := mapPage_links virt ha.owned.apart (hshape _ hroot) hphys hlt (mapFlags_lt hf)
    generalize mapPage c.machine virt phys flags = h' at hk ⊢
    exact hkept hk
  · have hk := unmapPage_links ha.owned (ha.roots _ hroot) virt
    generalize unmapPage c.machine virt = h' at hk ⊢
    exact hkept hk

/-- In every address space that the operations build, the first gigabyte is open to user mode and
nothing else. -/
theorem reach_lowOpen {kernelEnd : ℕ} {entries : List E820Entry} {m : Mem} (hg : GoodMap entries)
    (hrun : Reach Spaces.step anyStep (.boot kernelEnd entries m) c) :
    ∀ r ∈ c.roots, LowOpen c.machine.mem r := by
  have hinv : (∃ use fl, Apart use fl c) ∧ ∀ r ∈ c.roots, LowOpen c.machine.mem r := by
    apply hrun.invariant (P := fun c => (∃ use fl, Apart use fl c) ∧
      ∀ r ∈ c.roots, LowOpen c.machine.mem r)
    · exact ⟨boot_apart hg m, fun r hr => by cases hr⟩
    · rintro c op c' ⟨⟨use, fl, ha⟩, hlow⟩ - hs
      exact ⟨ha.step hs, ha.step_lowOpen hlow hs⟩
  exact hinv.2

/-- No address above the first gigabyte can be used in user mode, whatever is mapped there. -/
theorem reach_user_low {kernelEnd : ℕ} {entries : List E820Entry} {m : Mem} (hg : GoodMap entries)
    (hrun : Reach Spaces.step anyStep (.boot kernelEnd entries m) c) {r va : ℕ} (hr : r ∈ c.roots)
    (hu : (translation c.machine.mem r va).user = true) : va / 2 ^ 30 % 2 ^ 18 = 0 := by
  obtain ⟨use, fl, ha⟩ := reach_apart hg hrun
  rw [translation_user] at hu
  obtain ⟨pa, hw⟩ := Option.isSome_iff_exists.mp hu
  exact (reach_lowOpen hg hrun r hr).user_low ha.owned.tree.linked
    (shape_eq_some.mpr (ha.roots r hr)) hw

/-- A page at 4 MiB. -/
theorem reach_user_low_sample : ∃ c, Reach Spaces.step anyStep oddBoot c ∧ 0x20F000 ∈ c.roots ∧
    (translation c.machine.mem 0x20F000 0x400000).user = true ∧ 0x400000 / 2 ^ 30 % 2 ^ 18 = 0 := by
  have hmap : oddSpace.step (.map 0x400000 0x301000 7) = some _ :=
    Spaces.step_map 0x400000 ⟨by decide +kernel, by decide, by decide, by decide⟩
  have hr : 0x20F000 ∈ oddSpace.roots := List.mem_singleton_self _
  have hrun := oddSpace_reached.tail trivial hmap
  refine ⟨_, hrun, hr, ?hu, reach_user_low ⟨by decide, List.pairwise_singleton _ _⟩ hrun hr ?hu⟩
  decide +kernel

end Spaces

end Mukrn
