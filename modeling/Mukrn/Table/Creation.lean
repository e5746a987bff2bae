import Mukrn.Table.Root
import Mukrn.Kernel.Boot

/-! What the creation paths do to the task table: either only memory changed, or one slot
was filled by `addTask`. -/
namespace Mukrn

/-- Result of a creation call: nothing but memory changed, or a task was published. -/
inductive Creation (s : Kernel) (wantPid : ℕ) : ℤ × Kernel → Prop
  | failed (h : Machine) : Creation s wantPid (-1, { s with machine := h })
  | added {h : Machine} {reuse : Option ℕ} {kstack pml4 loadAddr codePages : ℕ}
      (hn : s.numTasks < maxTasks) (hr : reuse = findReuse s wantPid ∨ reuse = none)
      (hk : kstack ≠ 0) (hp : pml4 ≠ 0) :
      Creation s wantPid (addTask s h reuse wantPid kstack pml4 loadAddr codePages)

/-- A creation that also leaves `paging_root` as it was. -/
def CreationKeepsRoot (s : Kernel) (wantPid : ℕ) (res : ℤ × Kernel) : Prop :=
  Creation s wantPid res ∧ res.2.machine.pagingRoot = s.machine.pagingRoot

private theorem keepsRoot_failed {s : Kernel} {wantPid : ℕ} {h : Machine}
    (hh : h.pagingRoot = s.machine.pagingRoot) :
    CreationKeepsRoot s wantPid (-1, { s with machine := h }) :=
  ⟨.failed h, hh⟩

theorem createStaged_creation {s : Kernel} {h : Machine} {buf wantPid : ℕ} {pages : List ℕ}
    {res : ℤ × Kernel} (hh : h.pagingRoot = s.machine.pagingRoot)
    (hc : createStaged s h buf pages wantPid = some res) : CreationKeepsRoot s wantPid res := by
  have hfail {h' : Machine} (hr : h'.pagingRoot = s.machine.pagingRoot)
      (he : some (-1, { s with machine := pmmFreePages h' pages }) = some res) :
      CreationKeepsRoot s wantPid res := by
    obtain rfl := Option.some.inj he
    exact keepsRoot_failed ((pmmFreePages_root _ _).trans hr)
  unfold createStaged at hc
  simp only at hc
  have ha := (pmmAllocPage_root h).trans hh
  have hk := (pagingCloneKernel_root (pmmAllocPage h).2).trans ha
  split at hc
  · exact hfail hh hc
  split at hc
  · exact hfail hh hc
  next hn =>
  split at hc
  · exact hfail ha hc
  next hkstack =>
  split at hc
  · exact hfail ((pmmFreePage_root _ _).trans ha) hc
  split at hc
  · exact hfail ((pmmFreePage_root _ _).trans hk) hc
  next hpml4 =>
  obtain ⟨⟨ok, h'⟩, -, rfl⟩ := Option.map_eq_some_iff.mp hc
  cases ok with
  | false => exact keepsRoot_failed hk
  | true =>
    refine ⟨.added (by omega) (.inl rfl) hkstack hpml4, ?_⟩
    exact (pmmFreePages_root _ _).trans hk

theorem createElf_creation {s : Kernel} {binary size wantPid : ℕ} {res : ℤ × Kernel}
    (hc : createElf s binary size wantPid = some res) : CreationKeepsRoot s wantPid res := by
  unfold createElf at hc
  split at hc
  · obtain rfl := Option.some.inj hc
    exact ⟨.failed s.machine, rfl⟩
  · have hr := stagePages_root ((size + 4095) / 4096) s.machine []
    split at hc
    next h he =>
      obtain rfl := Option.some.inj hc
      rw [he] at hr
      exact keepsRoot_failed hr
    next pages h he =>
      rw [he] at hr
      obtain ⟨h', hs, hc⟩ := Option.bind_eq_some_iff.mp hc
      exact createStaged_creation ((stageCopy_root hs).trans hr) hc

theorem createFlat_creation {s : Kernel} {binary size loadAddr wantPid : ℕ} {res : ℤ × Kernel}
    (hc : createFlat s binary size loadAddr wantPid = some res) : Creation s wantPid res := by
  have hfail {h : Machine} (he : some (-1, { s with machine := h }) = some res) :
      Creation s wantPid res := by
    obtain rfl := Option.some.inj he
    exact .failed h
  unfold createFlat at hc
  simp only at hc
  split at hc
  · exact hfail hc
  next hn =>
  split at hc
  · exact hfail hc
  split at hc
  · exact hfail hc
  next hkstack =>
  split at hc
  · exact hfail hc
  split at hc
  · exact hfail hc
  next hpml4 =>
  split at hc
  · obtain ⟨h', -, rfl⟩ := Option.map_eq_some_iff.mp hc
    exact .added (by omega) (.inr rfl) hkstack hpml4
  · exact hfail hc

theorem taskCreate_creation {s : Kernel} {binary size loadAddr wantPid : ℕ} {res : ℤ × Kernel}
    (hc : taskCreate s binary size loadAddr wantPid = some res) : Creation s wantPid res := by
  unfold taskCreate at hc
  split at hc
  · obtain ⟨magic, -, hc⟩ := Option.bind_eq_some_iff.mp hc
    split at hc
    · exact (createElf_creation hc).1
    · exact createFlat_creation hc
  · exact createFlat_creation hc

theorem sysSpawnAt_creation {s : Kernel} {addr size : ℕ} {res : ℤ × Kernel}
    (hc : sysSpawnAt s addr size = some res) : CreationKeepsRoot s 0 res := by
  have hfail (he : some (-1, s) = some res) : CreationKeepsRoot s 0 res := by
    obtain rfl := Option.some.inj he
    exact ⟨.failed s.machine, rfl⟩
  unfold sysSpawnAt at hc
  split at hc
  · exact hfail hc
  split at hc
  · obtain ⟨magic, -, hc⟩ := Option.bind_eq_some_iff.mp hc
    split at hc
    · exact createElf_creation hc
    · exact hfail hc
  · exact hfail hc

end Mukrn
