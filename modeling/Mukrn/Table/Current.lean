import Mukrn.Memory.Start

/-! The scheduler's variables agree in every run: one current slot, at most that one
running, and its root active. -/
namespace Mukrn
open Runs

/-- Slot `c` is current. Roots are non-zero, so a dispatch always switches. -/
structure Scheduled (s : Kernel) (c : ℕ) : Prop where
  current : s.currentTask = some c
  lt : c < s.numTasks
  le : s.numTasks ≤ maxTasks
  running : ∀ i, (s.tasks i).state = .running → i = c
  root : s.machine.pagingRoot = (s.tasks c).pml4Phys
  pml4 : ∀ i < s.numTasks, (s.tasks i).pml4Phys ≠ 0

namespace Scheduled

variable {s s' : Kernel} {c n : ℕ}

/-- A change that starts no other task and touches neither roots nor the current index. -/
theorem congr (h : Scheduled s c) (hc : s'.currentTask = s.currentTask)
    (hn : s'.numTasks = s.numTasks) (hr : s'.machine.pagingRoot = s.machine.pagingRoot)
    (ht : ∀ i, (s'.tasks i).pml4Phys = (s.tasks i).pml4Phys ∧
      ((s'.tasks i).state = .running → i = c ∨ (s.tasks i).state = .running)) :
    Scheduled s' c where
  current := hc.trans h.current
  lt := hn ▸ h.lt
  le := hn ▸ h.le
  running i hi := ((ht i).2 hi).elim id (h.running i)
  root := by rw [hr, h.root, (ht c).1]
  pml4 i hi := by
    rw [(ht i).1]
    exact h.pml4 i (hn ▸ hi)

theorem setState (h : Scheduled s c) {i : ℕ} {st : TaskState} (hst : st = .running → i = c) :
    Scheduled (s.setState i st) c := by
  refine h.congr rfl rfl rfl fun j => ⟨by simp, ?_⟩
  simp only [Kernel.setState_apply]
  split
  next hj => exact fun hr => .inl (hj.trans (hst hr))
  · exact .inr

theorem quiet (h : Scheduled s c) (hq : Quiet s s') : Scheduled s' c := by
  obtain ⟨m, b, rfl, hr⟩ := hq
  exact h.congr rfl rfl hr fun _ => ⟨rfl, .inr⟩

theorem sysExit (h : Scheduled s c) : Scheduled (sysExit s) c := by
  rw [sysExit_eq h.current]
  refine h.congr rfl rfl ((freeUserMemory_root _ _).trans (freeStackPage_root _ _)) fun j => ?_
  simp only [exitTasks]
  split
  next hj => exact ⟨by rw [hj], fun _ => .inl hj⟩
  · refine ⟨rfl, ?_⟩
    simp only
    split
    · intro hr
      cases hr
    · exact .inr

theorem woken (h : Scheduled s c) {uaddr : ℕ} (hw : Woken uaddr s s') : Scheduled s' c := by
  obtain ⟨st, l, rfl, -, -, hst⟩ := hw
  refine h.congr rfl rfl rfl fun j => ⟨rfl, fun hr => .inr ?_⟩
  rcases hst j with ⟨-, -, he⟩ | ⟨-, he⟩
  · exact absurd (he.symm.trans hr) (by decide)
  · exact he ▸ hr

/-- A new task is ready, not running, and its root is its own or its parent's. -/
theorem spawned (h : Scheduled s c) (hs : Spawned s s') : Scheduled s' c := by
  obtain ⟨m, kstack, pml4, la, cp, rfl, hr, hn, -, hp⟩ := hs
  have hne : c ≠ s.numTasks := h.lt.ne
  have hpml4 : pml4 ≠ 0 := by
    rcases hp with hp | ⟨d, hd, rfl⟩
    · exact hp
    · obtain rfl := Option.some.inj (h.current.symm.trans hd)
      exact h.pml4 _ h.lt
  refine ⟨h.current, Nat.lt_succ_of_lt h.lt, hn, fun i hi => ?_, ?_, fun i hi => ?_⟩
  · simp only [addTask, Option.getD_none, Kernel.setTask_apply] at hi
    split at hi
    · cases hi
    · exact h.running i hi
  · simp only [addTask, Option.getD_none, Kernel.setTask_apply, if_neg hne]
    exact hr.trans h.root
  · simp only [addTask, Option.getD_none, Kernel.setTask_apply]
    split
    · exact hpml4
    · simp only [addTask, Option.isSome_none, Bool.false_eq_true, if_false] at hi
      exact h.pml4 i (by omega)

theorem enqueue (h : Scheduled s c) {i pid type len : ℕ} {data : ℕ → UInt8} :
    Scheduled (s.setTask i ((s.tasks i).enqueue pid type len data)) c := by
  refine h.congr rfl rfl rfl fun j => ?_
  simp only [Kernel.setTask_apply]
  split
  next hj =>
    subst hj
    refine ⟨rfl, ?_⟩
    simp only [Task.enqueue]
    split
    · intro hr
      cases hr
    · exact .inr
  · exact ⟨rfl, .inr⟩

theorem keyboardIrq (h : Scheduled s c) (sc : UInt8) : Scheduled (keyboardIrq s sc) c := by
  unfold Mukrn.keyboardIrq
  split
  · exact h
  · split
    · exact h.enqueue
    · exact h

theorem irqEffect (h : Scheduled s c) (io : Ports) (n : ℕ) : Scheduled (irqEffect s io n) c := by
  unfold Mukrn.irqEffect
  split
  · exact h.congr rfl rfl rfl fun _ => ⟨rfl, .inr⟩
  · split
    · exact h.keyboardIrq _
    · exact h

theorem sleepLoop (h : Scheduled s c) (start target : ℕ) :
    Scheduled (sleepLoop s start target).kernel c := by
  unfold Mukrn.sleepLoop
  rw [Kernel.setCurrentState_eq _ h.current, Kernel.setCurrentState_eq _ h.current]
  split <;> exact h.setState fun _ => rfl

theorem callEffect (h : Scheduled s c) {call : Syscall} {o : SysOutcome}
    (he : CallEffect s c call o) : Scheduled o.kernel c := by
  cases he with
  | quiet hq => exact h.quiet hq
  | exit => exact h.sysExit
  | send => exact h.enqueue
  | recv _ hw =>
    refine h.congr rfl rfl (writeUserMsg_root hw) fun j => ?_
    simp only [SysOutcome.kernel, Kernel.setTask_apply]
    split
    next hj => exact ⟨by rw [hj], fun _ => .inl hj⟩
    · exact ⟨rfl, .inr⟩
  | wait =>
    refine Scheduled.setState ?_ fun _ => rfl
    refine h.congr rfl rfl rfl fun j => ?_
    simp only [Kernel.setTask_apply]
    split
    next hj => exact ⟨by rw [hj], hj ▸ .inr⟩
    · exact ⟨rfl, .inr⟩
  | waitAny =>
    refine Scheduled.setState ?_ fun _ => rfl
    refine h.congr rfl rfl rfl fun j => ?_
    simp only [waitAnyTasks]
    split <;> exact ⟨rfl, .inr⟩
  | irqRegister => exact h.congr rfl rfl rfl fun _ => ⟨rfl, .inr⟩
  | @kill pid i rax m hi hr =>
    have hs : Scheduled (s.setState i .exited) c := h.setState (by simp)
    exact hs.congr rfl rfl hr fun _ => ⟨rfl, .inr⟩
  | clone hs => exact h.spawned hs
  | spawnAt hs => exact h.spawned hs
  | futexWait =>
    refine Scheduled.setState ?_ fun _ => rfl
    exact h.congr rfl rfl rfl fun _ => ⟨rfl, .inr⟩
  | futexWake hw => exact h.woken hw
  | nanosleep => exact h.sleepLoop _ _
  | shutdown => exact h

theorem served {x : System} {q : Request} {k : Kernel} (h : Scheduled x.kernel c)
    (hs : Served x q k) : Scheduled k c := by
  cases hs with
  | none => exact h
  | store hw => exact h.quiet (.memory (userStore_root hw))
  | fault => exact h.sysExit
  | irq => exact h.irqEffect _ _
  | call ho => exact h.callEffect (syscallHandler_effect h.current ho)
  | asleep => exact (h.irqEffect _ _).sleepLoop _ _

/-- With no task running any slot below `num_tasks` can be dispatched. -/
theorem dispatched (h : Scheduled s c) (hn : n < s.numTasks)
    (hidle : ∀ i, (s.tasks i).state ≠ .running) : Scheduled (dispatched s n) n := by
  have hp := h.pml4 n hn
  refine ⟨rfl, hn, h.le, fun i hi => ?_, ?_, fun i hi => ?_⟩
  · simp only [Mukrn.dispatched, Kernel.setState_apply] at hi
    by_contra hne
    rw [if_neg hne] at hi
    exact hidle i hi
  · simp only [Mukrn.dispatched, Kernel.setState_apply, if_pos hp, pagingSwitch_root]
  · simp only [Mukrn.dispatched, Kernel.setState_apply]
    exact h.pml4 i hi

theorem saveFrame (h : Scheduled s c) (r : Registers) : Scheduled (saveFrame s c r) c := by
  refine h.congr rfl rfl rfl fun j => ?_
  simp only [Mukrn.saveFrame, Kernel.setTask_apply]
  split
  next hj => exact ⟨by rw [hj], fun _ => .inl hj⟩
  · exact ⟨rfl, .inr⟩

theorem preempt (h : Scheduled s c) (r : Registers) :
    Scheduled (preempt s c r) c ∧ ∀ i, ((preempt s c r).tasks i).state ≠ .running := by
  have hs := h.saveFrame r
  refine ⟨hs.setState nofun, fun i hi => ?_⟩
  simp only [Mukrn.preempt, Kernel.setState_apply] at hi
  split at hi
  · cases hi
  next hne => exact hne (hs.running i hi)

theorem yieldCaller (h : Scheduled s c) (r : Registers) :
    Scheduled (yieldCaller s c r) c ∧ ∀ i, ((yieldCaller s c r).tasks i).state ≠ .running := by
  have hs := h.saveFrame r
  unfold Mukrn.yieldCaller
  simp only
  split
  · exact h.preempt r
  next hb =>
    refine ⟨hs, fun i hi => hb ?_⟩
    rw [hs.running i hi] at hi
    rw [hi]
    decide

end Scheduled

theorem nextTask_lt {s : Kernel} {c : ℕ} (hc : c < s.numTasks) : nextTask s c < s.numTasks := by
  unfold nextTask scheduleNext
  split
  · exact hc
  · split
    next n hn =>
      obtain ⟨k, -, rfl⟩ := List.mem_map.mp (List.mem_of_find?_eq_some hn)
      exact Nat.mod_lt _ (by omega)
    · exact hc

theorem Scheduled.finish {k : Kernel} {y : System} {c : ℕ} (h : Scheduled k c)
    (hf : Finish k y) : ∃ n, Scheduled y.kernel n := by
  cases hf with
  | stay p => exact ⟨c, h⟩
  | timer r hc =>
    obtain rfl := Option.some.inj (h.current.symm.trans hc)
    obtain ⟨hp, hidle⟩ := h.preempt r
    rw [dispatch_eq]
    exact ⟨_, hp.dispatched (nextTask_lt hp.lt) hidle⟩
  | call r hc =>
    obtain rfl := Option.some.inj (h.current.symm.trans hc)
    obtain ⟨hp, hidle⟩ := h.yieldCaller r
    rw [dispatch_eq]
    exact ⟨_, hp.dispatched (nextTask_lt hp.lt) hidle⟩
  | fault hc hi =>
    rw [dispatch_eq]
    have hlt := List.mem_range.mp (List.mem_of_find?_eq_some hi)
    refine ⟨_, h.dispatched hlt fun i hr => ?_⟩
    have he := hc c h.current
    rw [← h.running i hr, hr] at he
    cases he

/-- One step keeps the scheduler's variables in agreement. -/
theorem Scheduled.step {x y : System} {i : Input} {c : ℕ} (h : Scheduled x.kernel c)
    (hs : step x i = some y) : ∃ n, Scheduled y.kernel n := by
  obtain ⟨k, hk, hf⟩ := step_finish hs
  exact (h.served (serve_cases hk)).finish hf

/-- The table before the scheduler starts: no current slot, tasks ready, roots set. -/
structure Unstarted (s : Kernel) : Prop where
  current : s.currentTask = none
  le : s.numTasks ≤ maxTasks
  idle : ∀ i, (s.tasks i).state ≠ .running
  pml4 : ∀ i < s.numTasks, (s.tasks i).pml4Phys ≠ 0

theorem Unstarted.creation {s : Kernel} {wantPid : ℕ} {res : ℤ × Kernel} (h : Unstarted s)
    (hc : Creation s wantPid res) : Unstarted res.2 := by
  cases hc with
  | failed m => exact ⟨h.current, h.le, h.idle, h.pml4⟩
  | @added m reuse kstack pml4 la cp hn hr hk hp =>
    have hi (j : ℕ) : ((addTask s m reuse wantPid kstack pml4 la cp).2.tasks j) =
        if j = reuse.getD s.numTasks then newTask (s.tasks j) kstack
          (if 0 < wantPid then wantPid else s.nextPid) pml4 la cp else s.tasks j := by
      simp only [addTask, Kernel.setTask_apply]
      split
      next hj => rw [hj]
      · rfl
    refine ⟨h.current, ?_, fun j => ?_, fun j hj => ?_⟩
    · simp only [addTask]
      split <;> omega
    · rw [hi]
      split
      · simp [newTask, ipcInitTask]
      · exact h.idle j
    · rw [hi]
      split
      · exact hp
      next hne =>
        refine h.pml4 j ?_
        cases reuse with
        | none =>
          simp only [addTask, Option.isSome_none, Bool.false_eq_true, if_false] at hj
          simp only [Option.getD_none] at hne
          omega
        | some i => exact hj

theorem initialKernel_state (h : Machine) (i : ℕ) :
    ((initialKernel h).tasks i).state = .exited := by
  simp only [initialKernel, taskInit]
  split <;> rfl

theorem Created.unstarted {s : Kernel} (h : Created s) : Unstarted s := by
  induction h with
  | init m =>
    refine ⟨rfl, Nat.zero_le _, fun i => ?_, fun i hi => absurd hi (Nat.not_lt_zero i)⟩
    rw [initialKernel_state]
    decide
  | create _ hc ih => exact ih.creation (taskCreate_creation hc)

theorem Unstarted.start {s : Kernel} (h : Unstarted s) (hn : 0 < s.numTasks) :
    Scheduled (schedulerStart s).kernel 0 := by
  have hp := h.pml4 0 hn
  simp only [schedulerStart, if_neg hn.ne']
  refine ⟨rfl, hn, h.le, fun i hi => ?_, ?_, fun i hi => ?_⟩
  · simp only [Kernel.setState_apply] at hi
    by_contra hne
    rw [if_neg hne] at hi
    exact h.idle i hi
  · simp only [Kernel.setState_apply, if_neg hp, pagingSwitch_root]
  · simp only [Kernel.setState_apply]
    exact h.pml4 i hi

/-- The scheduler's variables agree along every run, whatever steps it is restricted to. -/
theorem reach_scheduled {s : Kernel} {y : System} {ok : System → Input → Prop} (hs : Created s)
    (hn : 0 < s.numTasks) (hy : Reach step ok (schedulerStart s) y) :
    ∃ c, Scheduled y.kernel c := by
  refine hy.invariant (P := fun y => ∃ c, Scheduled y.kernel c) ⟨0, hs.unstarted.start hn⟩ ?_
  rintro x i y ⟨c, hc⟩ - hy
  exact hc.step hy

/-- In every state of a run, so whenever user mode is entered, `current_task` is a slot in
use, no other slot is running and the active root is that task's. -/
theorem currentTask_consistent {s : Kernel} {y : System} (hs : Created s) (hn : 0 < s.numTasks)
    (hy : Reach step anyStep (schedulerStart s) y) :
    ∃ c, y.kernel.currentTask = some c ∧ c < y.kernel.numTasks ∧ y.kernel.numTasks ≤ 64 ∧
      (∀ i, i ≠ c → (y.kernel.tasks i).state ≠ .running) ∧
      y.kernel.machine.pagingRoot = (y.kernel.tasks c).pml4Phys := by
  obtain ⟨c, h⟩ := reach_scheduled hs hn hy
  exact ⟨c, h.current, h.lt, h.le, fun i hi hr => hi (h.running i hr), h.root⟩

theorem currentTask_consistent_sample : ∃ s y, Created s ∧ 0 < s.numTasks ∧
    Reach step anyStep (schedulerStart s) y ∧ y.kernel.numTasks = 2 ∧
    ∃ c, y.kernel.currentTask = some c ∧ c < y.kernel.numTasks ∧ y.kernel.numTasks ≤ 64 ∧
      (∀ i, i ≠ c → (y.kernel.tasks i).state ≠ .running) ∧
      y.kernel.machine.pagingRoot = (y.kernel.tasks c).pml4Phys := by
  obtain ⟨x, h, f, y, r, use, fl, hk, ht, hstep, hy, hty, -⟩ := sample_cloned
  obtain ⟨s, hs, rfl, hn⟩ := kmain_created hk
  have hn : s.numTasks = 1 := hn.trans (congrArg TaskTable.num ht)
  have hrun : Reach step anyStep (schedulerStart s) y := .tail .refl trivial hstep
  have hnum : y.kernel.numTasks = 2 := congrArg TaskTable.num (Option.some.inj hty).symm
  exact ⟨s, y, hs, by omega, hrun, hnum, currentTask_consistent hs (by omega) hrun⟩

end Mukrn
