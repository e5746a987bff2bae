import Mukrn.Table.Wake

/-! `sys_kill` against `sys_exit`: two copies of one teardown, compared from one state. -/
namespace Mukrn

/-- The kernel after slot `p` itself, current under its own root, has called `sys_exit`. -/
def ownExit (s : Kernel) (p : ℕ) : Kernel :=
  sysExit { s with
    currentTask := some p
    machine := pagingSwitch s.machine (s.tasks p).pml4Phys }

/-- The observations on which a kill and an exit of slot `p` should agree. Equal memories
have equal page tables and equal free-list links. -/
structure TerminationAgrees (a b : Kernel) (p : ℕ) : Prop where
  states : ∀ j, (a.tasks j).state = (b.tasks j).state
  stack : (a.tasks p).stackPhys = (b.tasks p).stackPhys
  freeStack : a.machine.freeStack = b.machine.freeStack
  mem : a.machine.mem = b.machine.mem

theorem freeUserRange_switch (h : Machine) (r pml4 start finish : ℕ) :
    freeUserRange (pagingSwitch h r) pml4 start finish =
      pagingSwitch (freeUserRange h pml4 start finish) r := by
  have hp : pagingSwitch (pagingSwitch h r) pml4 = pagingSwitch h pml4 := rfl
  unfold freeUserRange
  simp only [hp]
  rfl

theorem freeUserMemory_switch (h : Machine) (r : ℕ) (t : Task) :
    freeUserMemory (pagingSwitch h r) t = pagingSwitch (freeUserMemory h t) r := by
  unfold freeUserMemory
  by_cases hc : t.pml4Phys ≠ 0 ∧ t.codePages ≠ 0
  · rw [if_pos hc, if_pos hc]
    simp only [freeUserRange_switch]
  · rw [if_neg hc, if_neg hc]

theorem freeStackPage_switch (h : Machine) (r : ℕ) (t : Task) :
    freeStackPage (pagingSwitch h r) t = pagingSwitch (freeStackPage h t) r := by
  unfold freeStackPage
  split <;> rfl

/-- Both paths do the same to memory, whichever root is active. -/
theorem ownExit_machine (s : Kernel) (p : ℕ) :
    (ownExit s p).machine =
      pagingSwitch (freeUserMemory (freeStackPage s.machine (s.tasks p)) (s.tasks p))
        (s.tasks p).pml4Phys := by
  rw [ownExit, sysExit_eq (c := p) rfl]
  simp only [freeStackPage_switch, freeUserMemory_switch]

theorem Numbered.findLive {s : Kernel} {p : ℕ} (h : Numbered s) (hp : p < s.numTasks)
    (hl : (s.tasks p).state ≠ .exited) : s.findLive (s.tasks p).pid = some p := by
  have hsome : (s.findLive (s.tasks p).pid).isSome := by
    simp only [Kernel.findLive, List.find?_isSome, List.mem_range]
    exact ⟨p, hp, by simp [Kernel.live, hl]⟩
  obtain ⟨i, hi⟩ := Option.isSome_iff_exists.mp hsome
  obtain ⟨hin, hip, -⟩ := Kernel.findLive_spec hi
  rw [hi, h.pid_inj hin hp hip]

/-- An exit forgets the kernel stack, a kill does not. -/
theorem ownExit_stackPhys (s : Kernel) (p : ℕ) : ((ownExit s p).tasks p).stackPhys = 0 := by
  rw [ownExit, sysExit_eq (c := p) rfl]
  simp only [exitTasks, if_true]

theorem sysKill_stackPhys (s : Kernel) (pid j : ℕ) :
    ((sysKill s pid).2.tasks j).stackPhys = (s.tasks j).stackPhys := by
  unfold sysKill
  split
  · rfl
  · simp only [Kernel.setState_apply]

/-- Killing a live task and its own exit agree exactly when it records no kernel stack and
no other waiter that the exit would have to wake. -/
theorem kill_agrees_exit_iff {x : System} {c p : ℕ} (hx : Reachable x)
    (hc : x.kernel.currentTask = some c) (hp : p < x.kernel.numTasks)
    (hl : (x.kernel.tasks p).state ≠ .exited) :
    TerminationAgrees (sysKill x.kernel (x.kernel.tasks p).pid).2 (ownExit x.kernel p) p ↔
      (x.kernel.tasks p).stackPhys = 0 ∧
        ∀ w, (x.kernel.tasks p).waitIdx = some w → w ≠ p → (x.kernel.tasks w).state = .ready := by
  obtain ⟨-, hn⟩ := hx.table hc
  generalize x.kernel = s at *
  have hk : (sysKill s (s.tasks p).pid).2 =
      { s.setState p .exited with
        machine := freeUserMemory (freeStackPage s.machine (s.tasks p)) (s.tasks p) } := by
    simp only [sysKill, hn.findLive hp hl]
    rfl
  have hexit (j : ℕ) : ((ownExit s p).tasks j).state =
      if j = p then .exited
      else if (s.tasks p).waitIdx = some j then .ready else (s.tasks j).state :=
    sysExit_state rfl j
  have hstack := ownExit_stackPhys s p
  rw [hk]
  constructor
  · intro h
    refine ⟨?_, fun w hw hwp => ?_⟩
    · have hs := h.stack
      rw [hstack] at hs
      simpa only [Kernel.setState_apply] using hs
    · have hst := h.states w
      rw [hexit, if_neg hwp, if_pos hw] at hst
      simpa only [Kernel.setState_apply, if_neg hwp] using hst
  · rintro ⟨h0, hw⟩
    refine ⟨fun j => ?_, ?_, ?_, ?_⟩
    · rw [hexit]
      simp only [Kernel.setState_apply]
      by_cases hj : j = p
      · rw [if_pos hj, if_pos hj]
      · rw [if_neg hj, if_neg hj]
        split
        next hi => exact hw j hi hj
        · rfl
    · rw [hstack]
      simpa only [Kernel.setState_apply] using h0
    · rw [ownExit_machine]
      rfl
    · rw [ownExit_machine]
      rfl

theorem kill_agrees_exit_iff_sample : ∃ x, Reachable x ∧ x.kernel.currentTask = some 1 ∧
    0 < x.kernel.numTasks ∧ (x.kernel.tasks 0).state ≠ .exited ∧
    (TerminationAgrees (sysKill x.kernel (x.kernel.tasks 0).pid).2 (ownExit x.kernel 0) 0 ↔
      (x.kernel.tasks 0).stackPhys = 0 ∧
        ∀ w, (x.kernel.tasks 0).waitIdx = some w → w ≠ 0 → (x.kernel.tasks w).state = .ready) := by
  obtain ⟨x, h, f, y, r, use, fl, hk, -, hstep, hy, hty, -⟩ := sample_cloned
  have hty := (Option.some.inj hty).symm
  have hx : Reachable y := ⟨_, x, hk, .tail .refl trivial hstep⟩
  have hc : y.kernel.currentTask = some 1 := congrArg TaskTable.current hty
  have hn : y.kernel.numTasks = 2 := congrArg TaskTable.num hty
  have hs : (y.kernel.tasks 0).state = .ready := congrFun (congrArg TaskTable.state hty) 0
  have hp : 0 < y.kernel.numTasks := by omega
  have hl : (y.kernel.tasks 0).state ≠ .exited := by
    rw [hs]
    decide
  exact ⟨y, hx, hc, hp, hl, kill_agrees_exit_iff hx hc hp hl⟩

/-- A thread kills its parent: the parent's stack page is free and still recorded. -/
theorem kill_keeps_stack : ∃ x p, Reachable x ∧ p < x.kernel.numTasks ∧
    (x.kernel.tasks p).state ≠ .exited ∧ x.kernel.currentTask ≠ some p ∧
    ¬ TerminationAgrees (sysKill x.kernel (x.kernel.tasks p).pid).2 (ownExit x.kernel p) p := by
  obtain ⟨x, h, f, y, r, use, fl, hk, ht, hstep, hy, hty, -, hk0, -, -, hsame⟩ := sample_cloned
  have hty := (Option.some.inj hty).symm
  have hc : y.kernel.currentTask = some 1 := congrArg TaskTable.current hty
  have hn : y.kernel.numTasks = 2 := congrArg TaskTable.num hty
  have hs : (y.kernel.tasks 0).state = .ready := congrFun (congrArg TaskTable.state hty) 0
  have hn0 : x.kernel.numTasks = 1 := congrArg TaskTable.num ht
  have hstack : (y.kernel.tasks 0).stackPhys = (x.kernel.tasks 0).stackPhys := by
    obtain ⟨st, rsp, he⟩ := hsame.tasks 0
    rw [he]
    simp [addTask, hn0]
  refine ⟨y, 0, ⟨_, x, hk, .tail .refl trivial hstep⟩, by omega, by rw [hs]; decide,
    by rw [hc]; decide, fun hagree => hk0 ?_⟩
  have h0 := hagree.stack
  rwa [sysKill_stackPhys, ownExit_stackPhys, hstack] at h0

end Mukrn
