import Mukrn.Memory.Spaces
import Mukrn.Table.Step

/-! Safe kernels: the pages are owned, every live task's kernel stack is a page of its own, and
every slot's root is the root of a tree of tables. -/
namespace Mukrn
open ByteMemory PageTable LinkedStack

/-- The page ownership that the task table relies on. The stack of a dead task is gone, except
that the task running now may have none. -/
structure Safe (use : ℕ → Use) (fl : List ℕ) (s : Kernel) : Prop where
  owned : Owned use fl s.machine
  stack : ∀ i < s.numTasks, s.live i ∨ s.currentTask = some i →
    (s.tasks i).stackPhys = 0 ∨ use (s.tasks i).stackPhys = .stack i
  root : ∀ i < s.numTasks, use (s.tasks i).pml4Phys = .table (s.tasks i).pml4Phys []

/-- The slots keep their pages, and no dead task is revived. -/
structure KeepsSlots (s s' : Kernel) : Prop where
  numTasks : s'.numTasks = s.numTasks
  stackPhys : ∀ i, (s'.tasks i).stackPhys = (s.tasks i).stackPhys
  pml4Phys : ∀ i, (s'.tasks i).pml4Phys = (s.tasks i).pml4Phys
  alive : ∀ i < s.numTasks, s'.live i ∨ s'.currentTask = some i →
    s.live i ∨ s.currentTask = some i

namespace KeepsSlots

variable {s s' s'' : Kernel}

theorem refl (s : Kernel) : KeepsSlots s s := ⟨rfl, fun _ => rfl, fun _ => rfl, fun _ _ h => h⟩

theorem trans (h : KeepsSlots s s') (h' : KeepsSlots s' s'') : KeepsSlots s s'' :=
  ⟨h'.numTasks.trans h.numTasks, fun i => (h'.stackPhys i).trans (h.stackPhys i),
    fun i => (h'.pml4Phys i).trans (h.pml4Phys i),
    fun i hi hl => h.alive i hi (h'.alive i (h.numTasks ▸ hi) hl)⟩

/-- One slot changed in other respects, and it was alive or current before. -/
theorem setTask {i : ℕ} {t : Task} (ht : t.stackPhys = (s.tasks i).stackPhys)
    (hp : t.pml4Phys = (s.tasks i).pml4Phys)
    (hl : t.state = .exited ∨ s.live i ∨ s.currentTask = some i) :
    KeepsSlots s (s.setTask i t) := by
  refine ⟨rfl, fun j => ?_, fun j => ?_, fun j hj hlive => ?_⟩
  · rw [Kernel.setTask_apply]
    split
    next he => rw [ht, he]
    · rfl
  · rw [Kernel.setTask_apply]
    split
    next he => rw [hp, he]
    · rfl
  · by_cases he : j = i
    · subst he
      rcases hlive with hlive | hc
      · rcases hl with hx | hl
        · simp [Kernel.live, Kernel.setTask_apply, hx] at hlive
        · exact hl
      · exact .inr hc
    · refine hlive.imp_left fun h => ?_
      simpa only [Kernel.live, Kernel.setTask_apply, if_neg he] using h

theorem setState {i : ℕ} (st : TaskState) (hl : s.live i ∨ s.currentTask = some i) :
    KeepsSlots s (s.setState i st) := setTask rfl rfl (.inr hl)

end KeepsSlots

namespace Safe

variable {use use' : ℕ → Use} {fl fl' : List ℕ} {s s' : Kernel}

/-- Memory and uses change, but no stack and no root of a slot changes its use. -/
theorem machine (hs : Safe use fl s) {h : Machine} (ho : Owned use' fl' h)
    (hstack : ∀ f i, use f = .stack i → use' f = .stack i)
    (hroot : ∀ i < s.numTasks, use' (s.tasks i).pml4Phys = use (s.tasks i).pml4Phys) :
    Safe use' fl' { s with machine := h } :=
  ⟨ho, fun i hi hl => (hs.stack i hi hl).imp_right (hstack _ i),
    fun i hi => (hroot i hi).trans (hs.root i hi)⟩

/-- Only free pages and pages of user data changed their use. -/
theorem keepsUses (hs : Safe use fl s) {h : Machine} (ho : Owned use' fl' h)
    (hk : KeepsUses use use') : Safe use' fl' { s with machine := h } := by
  refine hs.machine ho (fun f i hf => ?_) fun i hi => ?_
  · rw [hk f (by rw [hf]; exact nofun) (by rw [hf]; exact nofun), hf]
  · exact hk _ (by rw [hs.root i hi]; exact nofun) (by rw [hs.root i hi]; exact nofun)

/-- Pages were only taken off the free list. -/
theorem took (hs : Safe use fl s) {h : Machine} {new : Use → Prop} {n : ℕ} (ho : Owned use' fl' h)
    (ht : Took new n use fl use' fl') : Safe use' fl' { s with machine := h } :=
  hs.keepsUses ho (ht.keepsUses hs.owned)

theorem slots (hs : Safe use fl s) (hk : KeepsSlots s s') (hm : s'.machine = s.machine) :
    Safe use fl s' := by
  refine ⟨hm ▸ hs.owned, fun i hi hl => ?_, fun i hi => ?_⟩
  · have hi := hk.numTasks ▸ hi
    rw [hk.stackPhys i]
    exact hs.stack i hi (hk.alive i hi hl)
  · rw [hk.pml4Phys i]
    exact hs.root i (hk.numTasks ▸ hi)

end Safe

/-- The free list can be followed to its end and `f` is on it. -/
def OnFreeList (h : Machine) (f : ℕ) : Prop :=
  ∃ fl, Chain (load64 h.mem) 0 h.freeStack fl ∧ f ∈ fl

/-- Pages whose contents the kernel relies on: free pages, the boot tables, and the tables of the
address spaces of its tasks. -/
def KernelPage (s : Kernel) (f : ℕ) : Prop :=
  OnFreeList s.machine f ∨ (f = 0x1000 ∨ f = 0x2000 ∨ f = 0x3000) ∨
    ∃ i < s.numTasks, ∃ p : List ℕ, TableAt present s.machine.mem (s.tasks i).pml4Phys p f

/-- Another memory has the same contents in these pages. -/
def Harmless (s : Kernel) (m : Mem) : Prop :=
  ∀ f, KernelPage s f → ∀ a, f ≤ a → a < f + 4096 → m a = s.machine.mem a

section Prune

variable {use : ℕ → Use} {fl : List ℕ} {s : Kernel}

open Classical in
/-- Forget the tables that no task's root leads to. -/
private noncomputable def prune (s : Kernel) (use : ℕ → Use) (f : ℕ) : Use :=
  match use f with
  | .table r p =>
    if ∃ i < s.numTasks, (s.tasks i).pml4Phys = r ∧ TableAt present s.machine.mem r p f
    then .table r p else .none
  | u => u

private theorem prune_other {f : ℕ} (hf : ∀ r p, use f ≠ .table r p) : prune s use f = use f := by
  unfold prune
  split
  next r p he => exact absurd he (hf r p)
  · rfl

private theorem prune_keep {f r i : ℕ} {p : List ℕ} (hf : use f = .table r p) (hi : i < s.numTasks)
    (hr : (s.tasks i).pml4Phys = r) (hat : TableAt present s.machine.mem r p f) :
    prune s use f = .table r p := by
  rw [prune, hf]
  exact if_pos ⟨i, hi, hr, hat⟩

private theorem prune_table {f r : ℕ} {p : List ℕ} (h : prune s use f = .table r p) :
    use f = .table r p ∧ ∃ i < s.numTasks, (s.tasks i).pml4Phys = r ∧
      TableAt present s.machine.mem r p f := by
  unfold prune at h
  split at h
  next r' p' he =>
    split at h
    next hn =>
      obtain ⟨rfl, rfl⟩ := Use.table.inj h
      exact ⟨he, hn⟩
    · cases h
  next hf => exact absurd h (hf r p)

private theorem owned_prune (hs : Safe use fl s) : Owned (prune s use) fl s.machine := by
  have ho := hs.owned
  have hiff (f : ℕ) (u : Use) (hu : u ≠ .none) (ht : ∀ r p, u ≠ .table r p) :
      prune s use f = u ↔ use f = u := by
    by_cases hf : ∃ r p, use f = .table r p
    · obtain ⟨r, p, hf⟩ := hf
      rw [prune, hf]
      simp only
      split
      · exact Iff.rfl
      · exact iff_of_false hu.symm (ht r p).symm
    · rw [prune_other fun r p h => hf ⟨r, p, h⟩]
  refine ⟨fun f hf => ho.page f fun hn => hf ?_, ho.chain, ho.nodup,
    fun f => (ho.free f).trans (hiff f .free nofun nofun).symm, ?_, ho.template,
    fun f => (ho.templateUse f).trans (hiff f .template nofun nofun).symm⟩
  · rw [prune_other (by rw [hn]; exact nofun), hn]
  · refine ho.tree.restrict (fun t x ht => ?_) fun t r p ht hp i hi hpres hleaf => ?_
    · obtain ⟨r, p⟩ := x
      exact shape_eq_some.mpr (prune_table (shape_eq_some.mp ht)).1
    · obtain ⟨hu, hreach⟩ := prune_table (shape_eq_some.mp ht)
      obtain ⟨j, hj, hjr, hat⟩ := hreach
      have hE := ho.tree.entries t r p (shape_eq_some.mpr hu) hp i hi
      have hchild := shape_eq_some.mp (hE.child hpres hleaf)
      have hflat : p = [] ∨ huge (entry s.machine.mem t i) = false := by
        rcases (by omega : p.length = 0 ∨ p.length = 1 ∨ p.length = 2) with h | h | h
        · exact .inl (List.length_eq_zero_iff.mp h)
        · exact .inr (hE.flat h hpres)
        · exact .inr (Bool.eq_false_iff.mpr fun hh => hleaf ⟨h, hh⟩)
      exact shape_eq_some.mpr (prune_keep hchild hj hjr (hat.next hi hp hpres hflat))

/-- A harmless write keeps a kernel safe and changes no translation of a task; only tables may
lose their use. -/
theorem Safe.harmless (hs : Safe use fl s) {m : Mem} (hm : Harmless s m) :
    ∃ use', Safe use' fl { s with machine := { s.machine with mem := m } } ∧
      (∀ f, (∀ r p, use f ≠ .table r p) → use' f = use f) ∧
      WalksAgree (shape use') (fun _ _ => False) s.machine.mem m := by
  have ho := owned_prune hs
  have htable {f r : ℕ} {p : List ℕ} (hu : prune s use f = .table r p) : KernelPage s f := by
    obtain ⟨-, i, hi, rfl, hat⟩ := prune_table hu
    exact .inr (.inr ⟨i, hi, p, hat⟩)
  refine ⟨prune s use, hs.machine (ho.congr fun f hf => hm f ?_) (fun f i hf => ?_) fun i hi => ?_,
    fun f hf => prune_other hf, ho.walksAgree fun t r p ht => hm t (htable ht)⟩
  · cases hu : prune s use f with
    | none => rw [hu] at hf; exact hf.elim
    | data => rw [hu] at hf; exact hf.elim
    | stack i => rw [hu] at hf; exact hf.elim
    | free => exact .inl ⟨fl, hs.owned.chain, (ho.free f).mpr hu⟩
    | template => exact .inr (.inl ((ho.templateUse f).mpr hu))
    | table r p => exact htable hu
  · rw [prune_other (by rw [hf]; exact nofun), hf]
  · have hu := hs.root i hi
    rw [prune_keep hu hi rfl .root, hu]

end Prune

end Mukrn
