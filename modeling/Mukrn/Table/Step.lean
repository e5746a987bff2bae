import Mukrn.Table.Effect
import Mukrn.Library.Runs

/-! A step in two parts: the trap's own work on the kernel's variables, and then the end of
`isr_handler`, which returns, or saves a frame and dispatches a task. -/
namespace Mukrn

def SysOutcome.kernel : SysOutcome → Kernel
  | .done _ s => s
  | .asleep s _ _ => s
  | .stopped s => s

/-- What an input asks of the kernel. `none` is an exception that halts it, or a vector
that nothing handles; a store asks nothing and only changes memory. -/
inductive Request where
  | none
  | store (virt : ℕ) (b : UInt8)
  | fault
  | irq (io : Ports) (n : ℕ)
  | call (io : Ports) (call : Syscall)

def Input.request : Input → Request
  | .trap io r =>
    let n := r.intNo.toNat
    if n ≤ 31 then if n = 14 ∧ r.fromUser then .fault else .none
    else if n ≤ 47 then .irq io n
    else if n = 0x80 then .call io r.syscall
    else .none
  | .irq io n => .irq io n
  | .store virt b => .store virt b

/-- The work a request of a running task causes, up to where a frame would be saved. -/
def work (s : Kernel) : Request → Option Kernel
  | .none => some s
  | .store virt b => (userStore s.machine virt b).map fun h => { s with machine := h }
  | .fault => some (sysExit s)
  | .irq io n => some (irqEffect s io n)
  | .call io call => (syscallHandler s io call).map SysOutcome.kernel

/-- The kernel after the trap's own work: before a frame is saved or a task is chosen. -/
def serve (x : System) (i : Input) : Option Kernel :=
  match x.phase, i with
  | .user _, .trap _ _ => work x.kernel i.request
  | .asleep _ start target, .irq io n =>
    if 32 ≤ n ∧ n ≤ 47 then some (sleepLoop (irqEffect x.kernel io n) start target).kernel
    else none
  | .user _, .store _ _ => work x.kernel i.request
  | _, _ => none

/-- Slot `n` made current and running under its own root. -/
def dispatched (s : Kernel) (n : ℕ) : Kernel :=
  let pml4 := (s.tasks n).pml4Phys
  { s.setState n .running with
    currentTask := some n
    machine := if pml4 ≠ 0 then pagingSwitch s.machine pml4 else s.machine }

/-- The slot `schedule_next` returns. -/
def nextTask (s : Kernel) (c : ℕ) : ℕ := (scheduleNext s c).2

theorem dispatch_eq (s : Kernel) (n : ℕ) :
    dispatch s n = .resume (dispatched s n) (loadFrame s.machine.mem (s.tasks n).rsp) := by
  have hm : (dispatched s n).machine.mem = s.machine.mem := by
    simp only [dispatched]
    split <;> rfl
  have ht : ((dispatched s n).tasks n).rsp = (s.tasks n).rsp := by simp [dispatched]
  rw [← hm, ← ht]
  simp only [dispatch, dispatched, Kernel.setState_machine, Kernel.setState_apply]

/-- The slot found is already marked when it is dispatched, which changes nothing. -/
theorem dispatch_scheduleNext (s : Kernel) (c : ℕ) :
    dispatch (scheduleNext s c).1 (scheduleNext s c).2 = dispatch s (nextTask s c) := by
  unfold nextTask scheduleNext
  split
  · rfl
  · split
    next n hn =>
      have hs : (s.setState n .running).setState n .running = s.setState n .running := by
        simp only [Kernel.setState, Kernel.setTask, Function.update_self, Function.update_idem]
      simp only [dispatch, hs]
    · rfl

/-- How `isr_handler` ends after the trap's own work has led to `k`. -/
inductive Finish (k : Kernel) : System → Prop
  | stay (p : Phase) : Finish k ⟨k, p⟩
  | timer {c : ℕ} (r : Registers) (hc : k.currentTask = some c) :
      Finish k (dispatch (preempt k c r) (nextTask (preempt k c r) c)).system
  | call {c : ℕ} (r : Registers) (hc : k.currentTask = some c) :
      Finish k (dispatch (yieldCaller k c r) (nextTask (yieldCaller k c r) c)).system
  | fault {i : ℕ} (hc : ∀ c, k.currentTask = some c → (k.tasks c).state = .exited)
      (hi : (List.range k.numTasks).find? (isReady k) = some i) : Finish k (dispatch k i).system

theorem afterSyscall_finish (s : Kernel) (r : Registers) : Finish s (afterSyscall s r).system := by
  unfold afterSyscall
  split
  · split
    · exact .stay _
    next c hc =>
      simp only [dispatch_scheduleNext]
      exact .call r hc
  · exact .stay _

theorem finishSyscall_finish (r : Registers) (o : SysOutcome) :
    Finish o.kernel (finishSyscall r o).system := by
  cases o with
  | done rax s => exact afterSyscall_finish s _
  | asleep s start target => exact .stay _
  | stopped s => exact .stay _

theorem sysExit_exited {s : Kernel} {c : ℕ} (hc : (sysExit s).currentTask = some c) :
    ((sysExit s).tasks c).state = .exited := by
  cases hs : s.currentTask with
  | none => simp [sysExit, hs] at hc
  | some d =>
    rw [sysExit_eq hs] at hc ⊢
    obtain rfl := Option.some.inj (hs.symm.trans hc)
    simp [exitTasks]

theorem pageFaultKill_finish (s : Kernel) : Finish (sysExit s) (pageFaultKill s).system := by
  unfold pageFaultKill
  simp only
  split
  next i hi => exact .fault (fun c hc => sysExit_exited hc) hi
  · exact .stay _

/-- Two kernels that differ in memory, task states, saved stack pointers and the current
index only. -/
structure SameTable (s s' : Kernel) : Prop where
  tasks : ∀ i, ∃ st rsp, s'.tasks i = { s.tasks i with state := st, rsp := rsp }
  numTasks : s'.numTasks = s.numTasks
  nextPid : s'.nextPid = s.nextPid
  futexWaiters : s'.futexWaiters = s.futexWaiters
  irqHandlers : s'.irqHandlers = s.irqHandlers

theorem SameTable.refl (s : Kernel) : SameTable s s :=
  ⟨fun i => ⟨(s.tasks i).state, (s.tasks i).rsp, rfl⟩, rfl, rfl, rfl, rfl⟩

theorem SameTable.trans {s s' s'' : Kernel} (h : SameTable s s') (h' : SameTable s' s'') :
    SameTable s s'' := by
  refine ⟨fun i => ?_, h'.numTasks.trans h.numTasks, h'.nextPid.trans h.nextPid,
    h'.futexWaiters.trans h.futexWaiters, h'.irqHandlers.trans h.irqHandlers⟩
  obtain ⟨st, rsp, hi⟩ := h.tasks i
  obtain ⟨st', rsp', hi'⟩ := h'.tasks i
  exact ⟨st', rsp', by rw [hi', hi]⟩

theorem SameTable.waitIdx {s s' : Kernel} (h : SameTable s s') (i : ℕ) :
    (s'.tasks i).waitIdx = (s.tasks i).waitIdx := by
  obtain ⟨st, rsp, hi⟩ := h.tasks i
  rw [hi]

theorem setState_sameTable (s : Kernel) (i : ℕ) (st : TaskState) : SameTable s (s.setState i st) :=
  ⟨fun j => ⟨_, _, Kernel.setState_apply s i j st⟩, rfl, rfl, rfl, rfl⟩

theorem sleepLoop_sameTable (s : Kernel) (start target : ℕ) :
    SameTable s (sleepLoop s start target).kernel := by
  have hs (st : TaskState) : SameTable s (s.setCurrentState st) := by
    unfold Kernel.setCurrentState
    split
    · exact .refl s
    · exact setState_sameTable ..
  unfold sleepLoop
  split <;> exact hs _

theorem sysNanosleep_sameTable (s : Kernel) (ns : ℕ) :
    SameTable s (sysNanosleep s ns).kernel := by
  unfold sysNanosleep
  exact sleepLoop_sameTable ..

theorem saveFrame_sameTable (s : Kernel) (c : ℕ) (r : Registers) :
    SameTable s (saveFrame s c r) := by
  refine ⟨fun j => ?_, rfl, rfl, rfl, rfl⟩
  by_cases hj : j = c
  · subst hj
    exact ⟨_, _, by simp only [saveFrame, Kernel.setTask_apply, if_true]; rfl⟩
  · exact ⟨_, _, by simp only [saveFrame, Kernel.setTask_apply, if_neg hj]; rfl⟩

theorem dispatch_sameTable (s : Kernel) (n : ℕ) : SameTable s (dispatch s n).system.kernel := by
  rw [dispatch_eq]
  exact ⟨(setState_sameTable s n .running).tasks, rfl, rfl, rfl, rfl⟩

theorem preempt_sameTable (s : Kernel) (c : ℕ) (r : Registers) : SameTable s (preempt s c r) :=
  (saveFrame_sameTable s c r).trans (setState_sameTable _ _ _)

theorem yieldCaller_sameTable (s : Kernel) (c : ℕ) (r : Registers) :
    SameTable s (yieldCaller s c r) := by
  unfold yieldCaller
  simp only
  split
  · exact preempt_sameTable s c r
  · exact saveFrame_sameTable s c r

theorem Finish.sameTable {k : Kernel} {y : System} (h : Finish k y) : SameTable k y.kernel := by
  cases h with
  | stay p => exact .refl k
  | timer r hc => exact (preempt_sameTable ..).trans (dispatch_sameTable ..)
  | call r hc => exact (yieldCaller_sameTable ..).trans (dispatch_sameTable ..)
  | fault => exact dispatch_sameTable ..

private theorem isrHandler_finish {s : Kernel} {io : Ports} {r : Registers} {o : Outcome}
    (ho : isrHandler s io r = some o) :
    ∃ k, work s (Input.trap io r).request = some k ∧ Finish k o.system := by
  simp only [isrHandler] at ho
  simp only [Input.request]
  split at ho
  next h31 =>
    obtain rfl := Option.some.inj ho
    rw [if_pos h31]
    split
    · exact ⟨_, rfl, pageFaultKill_finish s⟩
    · exact ⟨_, rfl, .stay _⟩
  next h31 =>
  rw [if_neg h31]
  split at ho
  next h47 =>
    rw [if_pos h47]
    refine ⟨_, rfl, ?_⟩
    split at ho
    · obtain rfl := Option.some.inj ho
      exact .stay _
    next c hc =>
      obtain rfl := Option.some.inj ho
      split
      · simp only [schedule, dispatch_scheduleNext]
        exact .timer r hc
      · exact .stay _
  next h47 =>
  rw [if_neg h47]
  split at ho
  next h80 =>
    obtain ⟨so, hso, rfl⟩ := Option.map_eq_some_iff.mp ho
    rw [if_pos h80, work, hso]
    exact ⟨_, rfl, finishSyscall_finish r so⟩
  next h80 =>
    obtain rfl := Option.some.inj ho
    rw [if_neg h80]
    exact ⟨_, rfl, .stay _⟩

/-- Every step is the trap's own work followed by one of the ends. -/
theorem step_finish {x y : System} {i : Input} (h : step x i = some y) :
    ∃ k, serve x i = some k ∧ Finish k y := by
  obtain ⟨s, p⟩ := x
  cases p with
  | user r0 =>
    cases i with
    | irq io n => cases h
    | trap io r =>
      obtain ⟨o, ho, rfl⟩ := Option.map_eq_some_iff.mp h
      exact isrHandler_finish ho
    | store virt b =>
      obtain ⟨m, hm, rfl⟩ := Option.map_eq_some_iff.mp h
      exact ⟨{ s with machine := m }, Option.map_eq_some_iff.mpr ⟨m, hm, rfl⟩, .stay _⟩
  | asleep r start target =>
    cases i with
    | trap io r => cases h
    | store virt b => cases h
    | irq io n =>
      simp only [step] at h
      simp only [serve]
      split at h
      next hn =>
        obtain rfl := Option.some.inj h
        rw [if_pos hn]
        exact ⟨_, rfl, finishSyscall_finish r _⟩
      · cases h
  | stopped => cases i <;> cases h

theorem step_stopped {x : System} (hp : x.phase = .stopped) (i : Input) : step x i = none := by
  obtain ⟨s, p⟩ := x
  subst hp
  cases i <;> rfl

/-- The cases of a trap's own work. -/
inductive Served (x : System) : Request → Kernel → Prop
  | none : Served x .none x.kernel
  | store {virt : ℕ} {b : UInt8} {h : Machine} (hw : userStore x.kernel.machine virt b = some h) :
      Served x (.store virt b) { x.kernel with machine := h }
  | fault : Served x .fault (sysExit x.kernel)
  | irq {io : Ports} {n : ℕ} : Served x (.irq io n) (irqEffect x.kernel io n)
  | call {io : Ports} {call : Syscall} {o : SysOutcome}
      (ho : syscallHandler x.kernel io call = some o) : Served x (.call io call) o.kernel
  | asleep {io : Ports} {n start target : ℕ} :
      Served x (.irq io n) (sleepLoop (irqEffect x.kernel io n) start target).kernel

theorem serve_cases {x : System} {i : Input} {k : Kernel} (h : serve x i = some k) :
    Served x i.request k := by
  have hwork {q : Request} (hq : work x.kernel q = some k) : Served x q k := by
    cases q with
    | none =>
      obtain rfl := Option.some.inj hq
      exact .none
    | store virt b =>
      obtain ⟨m, hm, rfl⟩ := Option.map_eq_some_iff.mp hq
      exact .store hm
    | fault =>
      obtain rfl := Option.some.inj hq
      exact .fault
    | irq io n =>
      obtain rfl := Option.some.inj hq
      exact .irq
    | call io call =>
      obtain ⟨o, ho, rfl⟩ := Option.map_eq_some_iff.mp hq
      exact .call ho
  simp only [serve] at h
  split at h
  · exact hwork h
  · split at h
    · obtain rfl := Option.some.inj h
      exact .asleep
    · cases h
  · exact hwork h
  · cases h

end Mukrn
