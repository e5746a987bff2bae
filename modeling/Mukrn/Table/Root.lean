import Mukrn.Kernel.Lifecycle
import Mukrn.Kernel.Elf

/-! The allocator, the page-table operations and the calls built on them put
`paging_root` back to what it was. -/
namespace Mukrn

@[simp] theorem pmmAllocPage_root (h : Machine) :
    (pmmAllocPage h).2.pagingRoot = h.pagingRoot := by
  unfold pmmAllocPage
  split <;> rfl

@[simp] theorem pmmFreePage_root (h : Machine) (a : ℕ) :
    (pmmFreePage h a).pagingRoot = h.pagingRoot := rfl

@[simp] theorem pmmFreePages_root (h : Machine) (pages : List ℕ) :
    (pmmFreePages h pages).pagingRoot = h.pagingRoot := by
  unfold pmmFreePages
  induction pages generalizing h with
  | nil => rfl
  | cons a pages ih => rw [List.foldl_cons, ih, pmmFreePage_root]

@[simp] theorem setEntry_root (h : Machine) (table i v : ℕ) :
    (setEntry h table i v).pagingRoot = h.pagingRoot := rfl

@[simp] theorem pagingSwitch_root (h : Machine) (r : ℕ) : (pagingSwitch h r).pagingRoot = r := rfl

@[simp] theorem pagingCloneKernel_root (h : Machine) :
    (pagingCloneKernel h).2.pagingRoot = h.pagingRoot := by
  simp only [pagingCloneKernel]
  split <;> simp

theorem ensureTable_root {h h' : Machine} {table i bits e : ℕ}
    (he : ensureTable h table i bits = some (h', e)) : h'.pagingRoot = h.pagingRoot := by
  unfold ensureTable at he
  split at he
  · obtain ⟨rfl, -⟩ := Prod.mk.inj (Option.some.inj he)
    rfl
  · simp only at he
    split at he
    · cases he
    · obtain ⟨rfl, -⟩ := Prod.mk.inj (Option.some.inj he)
      simp

theorem splitHuge_root {h h' : Machine} {pdt i e : ℕ}
    (he : splitHuge h pdt i = some (h', e)) : h'.pagingRoot = h.pagingRoot := by
  unfold splitHuge at he
  simp only at he
  split at he
  · cases he
  · obtain ⟨rfl, -⟩ := Prod.mk.inj (Option.some.inj he)
    simp

theorem ensurePt_root {h h' : Machine} {pdt i e : ℕ}
    (he : ensurePt h pdt i = some (h', e)) : h'.pagingRoot = h.pagingRoot := by
  unfold ensurePt at he
  simp only at he
  split at he
  · exact splitHuge_root he
  · exact ensureTable_root he

@[simp] theorem mapPage_root (h : Machine) (virt phys flags : ℕ) :
    (mapPage h virt phys flags).pagingRoot = h.pagingRoot := by
  unfold mapPage
  split
  · rfl
  next h1 e1 he1 =>
    have hr1 := ensureTable_root he1
    split
    · exact hr1
    next h2 e2 he2 =>
      have hr2 := (ensureTable_root he2).trans hr1
      simp only
      split
      · exact hr2
      · split
        · exact hr2
        next h3 e3 he3 => exact (ensurePt_root he3).trans hr2

@[simp] theorem mapPageFlags_root (h : Machine) (virt flags : ℕ) :
    (mapPageFlags h virt flags).pagingRoot = h.pagingRoot := by
  simp only [mapPageFlags]
  split_ifs <;> rfl

@[simp] theorem unmapPage_root (h : Machine) (virt : ℕ) :
    (unmapPage h virt).pagingRoot = h.pagingRoot := by
  simp only [unmapPage]
  split_ifs <;> rfl

theorem writeUser_root {h h' : Machine} {p i : ℕ} {b : UInt8}
    (hw : writeUser h p i b = some h') : h'.pagingRoot = h.pagingRoot := by
  obtain ⟨a, -, rfl⟩ := Option.map_eq_some_iff.mp hw
  rfl

theorem userStore_root {h h' : Machine} {virt : ℕ} {b : UInt8} (hw : userStore h virt b = some h') :
    h'.pagingRoot = h.pagingRoot := by
  unfold userStore at hw
  split at hw
  · obtain ⟨a, -, rfl⟩ := Option.map_eq_some_iff.mp hw
    rfl
  · cases hw

theorem writeUserBytes_root {h h' : Machine} {p i : ℕ} {bs : List UInt8}
    (hw : writeUserBytes h p i bs = some h') : h'.pagingRoot = h.pagingRoot := by
  induction bs generalizing h i with
  | nil =>
    obtain rfl := Option.some.inj hw
    rfl
  | cons b bs ih =>
    obtain ⟨h1, hb, hw⟩ := Option.bind_eq_some_iff.mp hw
    exact (ih hw).trans (writeUser_root hb)

theorem writeUserMsg_root {h h' : Machine} {msg : ℕ} {src : IpcMsg}
    (hw : writeUserMsg h msg src = some h') : h'.pagingRoot = h.pagingRoot := by
  obtain ⟨h1, hw1, hw⟩ := Option.bind_eq_some_iff.mp hw
  obtain ⟨h2, hw2, hw⟩ := Option.bind_eq_some_iff.mp hw
  obtain ⟨h3, hw3, hw⟩ := Option.bind_eq_some_iff.mp hw
  rw [writeUserBytes_root hw, writeUserBytes_root hw3, writeUserBytes_root hw2,
    writeUserBytes_root hw1]

@[simp] theorem freeUserRange_root (h : Machine) (pml4 start finish : ℕ) :
    (freeUserRange h pml4 start finish).pagingRoot = h.pagingRoot := rfl

@[simp] theorem freeUserMemory_root (h : Machine) (t : Task) :
    (freeUserMemory h t).pagingRoot = h.pagingRoot := by
  unfold freeUserMemory
  by_cases hc : t.pml4Phys ≠ 0 ∧ t.codePages ≠ 0
  · rw [if_pos hc]
    exact (freeUserRange_root _ _ _ _).trans (freeUserRange_root _ _ _ _)
  · rw [if_neg hc]

@[simp] theorem freeStackPage_root (h : Machine) (t : Task) :
    (freeStackPage h t).pagingRoot = h.pagingRoot := by
  unfold freeStackPage
  split <;> rfl

theorem stagePages_root (n : ℕ) (h : Machine) (pages : List ℕ) :
    (stagePages n h pages).2.pagingRoot = h.pagingRoot := by
  induction n generalizing h pages with
  | zero => rfl
  | succ n ih =>
    simp only [stagePages]
    split
    · simp
    · rw [ih, pmmAllocPage_root]

theorem stageCopy_root {binary buf n i : ℕ} {h h' : Machine}
    (hc : stageCopy binary buf n i h = some h') : h'.pagingRoot = h.pagingRoot := by
  induction n generalizing h i with
  | zero =>
    obtain rfl := Option.some.inj hc
    rfl
  | succ n ih =>
    obtain ⟨b, -, hc⟩ := Option.bind_eq_some_iff.mp hc
    have hr := ih hc
    exact hr

end Mukrn
