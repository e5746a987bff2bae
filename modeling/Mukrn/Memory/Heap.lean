import Mukrn.Memory.Spawn

/-! The heap break. There is one break for all processes, so what `brk` does for one of them depends
on the calls of the others. -/
namespace Mukrn
open PageTable

/-- A `brk` call of slot `i`, once the scheduler has switched to it. -/
def brkBy (s : Kernel) (i addr : ℕ) : ℤ × Kernel := sysBrk (dispatched s i) addr

/-- `brk` calls one after the other, each with the slot that makes it: the values returned, and the
kernel after the last one. -/
def brkRun : Kernel → List (ℕ × ℕ) → List (ℕ × ℤ) × Kernel
  | s, [] => ([], s)
  | s, (i, addr) :: calls =>
    let (v, s') := brkBy s i addr
    let (vs, t) := brkRun s' calls
    ((i, v) :: vs, t)

/-- What slot `a` is told in a run. -/
def returnedTo (a : ℕ) (log : List (ℕ × ℤ)) : List ℤ := (log.filter (·.1 = a)).map (·.2)

/-- The calls that slot `a` makes itself. -/
def ownCalls (a : ℕ) (calls : List (ℕ × ℕ)) : List (ℕ × ℕ) := calls.filter (·.1 = a)

/-- Every call of another slot than `a` asks for the break or sets it to where it is. -/
def OthersKeepBreak (a : ℕ) : Kernel → List (ℕ × ℕ) → Prop
  | _, [] => True
  | s, (i, addr) :: calls =>
    (i = a ∨ addr = 0 ∨ addr = s.heapBrk) ∧ OthersKeepBreak a (brkBy s i addr).2 calls

/-- All that `brk` reads of a kernel, apart from the caller. -/
structure SameHeap (s t : Kernel) : Prop where
  mem : t.machine.mem = s.machine.mem
  free : t.machine.freeStack = s.machine.freeStack
  heap : t.heapBrk = s.heapBrk
  roots : ∀ i, (t.tasks i).pml4Phys = (s.tasks i).pml4Phys

namespace SameHeap

variable {s t u : Kernel} {i addr : ℕ}

theorem refl (s : Kernel) : SameHeap s s := ⟨rfl, rfl, rfl, fun _ => rfl⟩

theorem trans (h : SameHeap s t) (h' : SameHeap t u) : SameHeap s u :=
  ⟨h'.mem.trans h.mem, h'.free.trans h.free, h'.heap.trans h.heap,
    fun i => (h'.roots i).trans (h.roots i)⟩

theorem symm (h : SameHeap s t) : SameHeap t s :=
  ⟨h.mem.symm, h.free.symm, h.heap.symm, fun i => (h.roots i).symm⟩

/-- Dispatching a task only changes the active root. -/
theorem dispatched (s : Kernel) (i : ℕ) : SameHeap s (dispatched s i) := by
  refine ⟨dispatched_mem s i, dispatched_freeStack s i, rfl, fun j => ?_⟩
  simp only [Mukrn.dispatched, Kernel.setState_apply]

/-- Under the same root the two kernels are one machine. -/
theorem machine (h : SameHeap s t) (root : ℕ) :
    pagingSwitch t.machine root = pagingSwitch s.machine root := by
  simp only [pagingSwitch, h.mem, h.free]

/-- Calls in kernels with the same heap return the same and lead to the same heap. -/
theorem brkBy (h : SameHeap s t) (i addr : ℕ) :
    (brkBy t i addr).1 = (brkBy s i addr).1 ∧ SameHeap (brkBy s i addr).2 (brkBy t i addr).2 := by
  have hd : SameHeap (Mukrn.dispatched s i) (Mukrn.dispatched t i) :=
    ((SameHeap.dispatched s i).symm.trans h).trans (.dispatched t i)
  have hc (k : Kernel) : (Mukrn.dispatched k i).currentTask = some i := rfl
  unfold Mukrn.brkBy sysBrk
  simp only [hc]
  generalize Mukrn.dispatched s i = s at hd
  generalize Mukrn.dispatched t i = t at hd
  by_cases h0 : addr = 0
  · rw [if_pos h0, if_pos h0, hd.heap]
    exact ⟨rfl, hd⟩
  · rw [if_neg h0, if_neg h0, hd.heap, hd.roots, hd.machine]
    cases mapFresh (pagePresent ||| pageWritable ||| pageUser)
      (pagingSwitch s.machine (s.tasks i).pml4Phys) (pageCursor s.heapBrk addr) with
    | mk ok h' =>
      cases ok with
      | false => exact ⟨rfl, rfl, rfl, rfl, hd.roots⟩
      | true => exact ⟨rfl, rfl, rfl, rfl, hd.roots⟩

/-- A call that keeps the break changes nothing that another call could notice. -/
theorem brkBy_keeps (s : Kernel) (i : ℕ) (hk : addr = 0 ∨ addr = s.heapBrk) :
    SameHeap s (Mukrn.brkBy s i addr).2 := by
  have hd := SameHeap.dispatched s i
  have hc : (Mukrn.dispatched s i).currentTask = some i := rfl
  unfold Mukrn.brkBy sysBrk
  simp only [hc]
  by_cases h0 : addr = 0
  · rw [if_pos h0]
    exact hd
  · have hnone : pageCursor s.heapBrk s.heapBrk = [] := by simp [pageCursor]
    rw [if_neg h0, hd.heap, hk.resolve_left h0, hnone]
    exact ⟨hd.mem, hd.free, rfl, hd.roots⟩

end SameHeap

/-- While the others leave the break where it is, a process gets the same values and has the same
pages mapped as if it made its calls alone. -/
theorem brk_as_alone {s : Kernel} {a : ℕ} {calls : List (ℕ × ℕ)} (h : OthersKeepBreak a s calls) :
    returnedTo a (brkRun s calls).1 = returnedTo a (brkRun s (ownCalls a calls)).1 ∧
    ∀ ok va, walk ok (brkRun s calls).2.machine.mem va 3 (s.tasks a).pml4Phys =
      walk ok (brkRun s (ownCalls a calls)).2.machine.mem va 3 (s.tasks a).pml4Phys := by
  have hsame : ∀ t, SameHeap s t →
      returnedTo a (brkRun s calls).1 = returnedTo a (brkRun t (ownCalls a calls)).1 ∧
      SameHeap (brkRun s calls).2 (brkRun t (ownCalls a calls)).2 := by
    induction calls generalizing s with
    | nil => exact fun t ht => ⟨rfl, ht⟩
    | cons call calls ih =>
      obtain ⟨i, addr⟩ := call
      intro t ht
      obtain ⟨hi, hrest⟩ := h
      by_cases hia : i = a
      · subst hia
        obtain ⟨hv, hst⟩ := ht.brkBy i addr
        obtain ⟨hvs, hend⟩ := ih hrest _ hst
        simp only [ownCalls, List.filter_cons, decide_true, if_true, brkRun, returnedTo,
          List.map_cons, hv] at hvs hend ⊢
        exact ⟨congrArg _ hvs, hend⟩
      · have hkeep := SameHeap.brkBy_keeps s i (hi.resolve_left hia)
        obtain ⟨hvs, hend⟩ := ih hrest t (hkeep.symm.trans ht)
        simp only [ownCalls, List.filter_cons, hia, decide_false, Bool.false_eq_true,
          if_false, brkRun,
          returnedTo] at hvs hend ⊢
        exact ⟨hvs, hend⟩
  obtain ⟨hv, hend⟩ := hsame s (.refl s)
  exact ⟨hv, fun ok va => by rw [hend.mem]⟩

/-- With a free page the first extension by one page succeeds. -/
private theorem brkBy_first {s : Kernel} (i : ℕ) (hp : s.machine.freeStack ≠ 0)
    (hh : s.heapBrk = 0x600000) :
    (brkBy s i 0x601000).1 = 0x600000 ∧ (brkBy s i 0x601000).2.heapBrk = 0x601000 := by
  have hd := SameHeap.dispatched s i
  have hc : (dispatched s i).currentTask = some i := rfl
  have hone : pageCursor 0x600000 0x601000 = [0x600000] := by decide +kernel
  have hpage : (pagingSwitch (dispatched s i).machine
      ((dispatched s i).tasks i).pml4Phys).freeStack ≠
      0 := by
    change (dispatched s i).machine.freeStack ≠ 0
    rwa [hd.free]
  unfold brkBy sysBrk
  simp only [hc, hd.heap, hh, hone]
  generalize pagingSwitch (dispatched s i).machine ((dispatched s i).tasks i).pml4Phys =
    h at hpage ⊢
  simp only [mapFresh, pmmAllocPage_taken rfl hpage, if_neg hpage]
  exact ⟨rfl, rfl⟩

private theorem brkBy_query (s : Kernel) (i : ℕ) :
    (brkBy s i 0).1 = toInt s.heapBrk ∧ (brkBy s i 0).2.heapBrk = s.heapBrk := by
  have hc : (dispatched s i).currentTask = some i := rfl
  have hh : (dispatched s i).heapBrk = s.heapBrk := rfl
  simp only [brkBy, sysBrk, hc, if_true, hh, and_self]

/-- Two processes, of which the first extends its heap by a page before the break is asked for. -/
private theorem sample_brk : ∃ y, Reachable y ∧
    (y.kernel.tasks 0).pml4Phys ≠ (y.kernel.tasks 1).pml4Phys ∧ y.kernel.heapBrk = 0x600000 ∧
    (brkBy y.kernel 0 0x601000).1 = 0x600000 ∧ (brkBy y.kernel 0 0x601000).2.heapBrk =
    0x601000 := by
  obtain ⟨x, y, r, use, fl, hk, hstep, -, hs, hlen, htwo⟩ := sample_spawned
  have hpage : y.kernel.machine.freeStack ≠ 0 := by
    rw [Ne, hs.owned.freeStack_eq_zero_iff]
    rintro rfl
    exact absurd hlen (by decide)
  exact ⟨y, ⟨_, x, hk, .tail .refl trivial hstep⟩, htwo.roots, htwo.heap,
    brkBy_first 0 hpage htwo.heap⟩

private theorem toInt_break : toInt 0x600000 = 0x600000 ∧ toInt 0x601000 = 0x601000 := by
  decide +kernel

/-- A process may ask for the break while another one extends its heap. -/
theorem brk_as_alone_sample : ∃ y, Reachable y ∧
    (y.kernel.tasks 0).pml4Phys ≠ (y.kernel.tasks 1).pml4Phys ∧
    OthersKeepBreak 0 y.kernel [(0, 0x601000), (1, 0), (0, 0)] ∧
    returnedTo 0 (brkRun y.kernel [(0, 0x601000), (1, 0), (0, 0)]).1 = [0x600000, 0x601000] ∧
    returnedTo 0 (brkRun y.kernel [(0, 0x601000), (1, 0), (0, 0)]).1 =
      returnedTo 0 (brkRun y.kernel [(0, 0x601000), (0, 0)]).1 := by
  obtain ⟨y, hy, hroots, -, hv, hb⟩ := sample_brk
  have hok : OthersKeepBreak 0 y.kernel [(0, 0x601000), (1, 0), (0, 0)] :=
    ⟨.inl rfl, .inr (.inl rfl), .inl rfl, trivial⟩
  refine ⟨y, hy, hroots, hok, ?_, (brk_as_alone hok).1⟩
  simp only [brkRun, returnedTo, hv, (brkBy_query _ _).1, (brkBy_query _ _).2, hb, toInt_break.2]
  rfl

/-- The first process extends its heap, and the second one is told a break that it never set. -/
theorem brk_shared_by_processes : ∃ y, Reachable y ∧
    (y.kernel.tasks 0).pml4Phys ≠ (y.kernel.tasks 1).pml4Phys ∧
    returnedTo 1 (brkRun y.kernel [(0, 0x601000), (1, 0)]).1 = [0x601000] ∧
    returnedTo 1 (brkRun y.kernel [(1, 0)]).1 = [0x600000] := by
  obtain ⟨y, hy, hroots, hh, hv, hb⟩ := sample_brk
  refine ⟨y, hy, hroots, ?_, ?_⟩
  · simp only [brkRun, returnedTo, hv, (brkBy_query _ _).1, hb, toInt_break.2]
    rfl
  · simp only [brkRun, returnedTo, (brkBy_query _ _).1, hh, toInt_break.1]
    rfl

end Mukrn
