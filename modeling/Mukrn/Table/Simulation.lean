import Mukrn.Table.Step

/-! The task table on its own: pids, states, recorded waiters and the fill of the mailboxes, without
memory, messages and frames. A trap of a running task for one of the calls that act on the table
takes the kernel to the table computed here. -/
namespace Mukrn

/-- The part of the kernel that waiting and scheduling depend on. -/
@[ext] structure TaskTable where
  current : Option ℕ
  num : ℕ
  nextPid : ℕ
  pid : ℕ → ℕ
  state : ℕ → TaskState
  waitIdx : ℕ → Option ℕ
  ipcCount : ℕ → ℕ

def Kernel.table (s : Kernel) : TaskTable where
  current := s.currentTask
  num := s.numTasks
  nextPid := s.nextPid
  pid i := (s.tasks i).pid
  state i := (s.tasks i).state
  waitIdx i := (s.tasks i).waitIdx
  ipcCount i := (s.tasks i).ipcCount

namespace TaskTable

/-- The table in which the first task starts. -/
def boot : TaskTable where
  current := some 0
  num := 1
  nextPid := 8
  pid i := if i = 0 then 1 else 0
  state i := if i = 0 then .running else .exited
  waitIdx i := if i = 0 then none else some 0
  ipcCount _ := 0

def setState (t : TaskTable) (i : ℕ) (st : TaskState) : TaskTable :=
  { t with state := fun j => if j = i then st else t.state j }

def findPid (t : TaskTable) (pid : ℕ) : Option ℕ := (List.range t.num).find? fun i => t.pid i == pid

def findLive (t : TaskTable) (pid : ℕ) : Option ℕ :=
  (List.range t.num).find? fun i => t.pid i == pid && t.state i != .exited

/-- The first ready slot after `c`, or `c` itself. -/
def next (t : TaskTable) (c : ℕ) : ℕ :=
  if t.num ≤ 1 then c
  else
    (((List.range (t.num - 1)).map fun k => (c + (k + 1)) % t.num).find? fun i =>
      t.state i == .ready).getD c

/-- The end of a system call: the caller becomes ready if it can run, and the next slot runs. -/
def reschedule (t : TaskTable) (c : ℕ) : TaskTable :=
  let t := if t.state c ≠ .blocked ∧ t.state c ≠ .exited then t.setState c .ready else t
  { t.setState (t.next c) .running with current := some (t.next c) }

/-- What a call of slot `c` does to the table. `none` for the calls that are not described. -/
def call (t : TaskTable) (c : ℕ) : Syscall → Option TaskTable
  | .yield => some t
  | .exit =>
    some { t with state := fun j =>
      if j = c then .exited else if t.waitIdx c = some j then .ready else t.state j }
  | .wait pid =>
    match t.findPid pid with
    | none => some t
    | some i =>
      if t.state i = .exited then some t
      else
        some ({ t with waitIdx := fun j => if j = i then some c else t.waitIdx j }.setState c
          .blocked)
  | .kill pid =>
    match t.findLive pid with
    | none => some t
    | some i => some (t.setState i .exited)
  | .clone _ _ _ _ =>
    if maxTasks ≤ t.num then none
    else
      some { t with
        num := t.num + 1
        nextPid := (t.nextPid + 1) % 2 ^ 32
        pid := fun j => if j = t.num then t.nextPid else t.pid j
        state := fun j => if j = t.num then .ready else t.state j
        waitIdx := fun j => if j = t.num then none else t.waitIdx j
        ipcCount := fun j => if j = t.num then 0 else t.ipcCount j }
  | _ => none

/-- A call and the choice of the next task after it, in a table with several tasks. -/
def step (t : TaskTable) (request : Syscall) : Option TaskTable :=
  t.current.bind fun c =>
    (t.call c request).bind fun t => if 1 < t.num then some (t.reschedule c) else none

end TaskTable

section

variable {s : Kernel} {c : ℕ}

theorem table_setState (s : Kernel) (i : ℕ) (st : TaskState) :
    (s.setState i st).table = s.table.setState i st := by
  simp only [Kernel.table, TaskTable.setState, TaskTable.mk.injEq]
  refine ⟨rfl, rfl, rfl, ?_, ?_, ?_, ?_⟩ <;> funext j <;> simp

theorem table_findPid (s : Kernel) (pid : ℕ) : s.table.findPid pid = s.findPid pid := rfl

theorem table_findLive (s : Kernel) (pid : ℕ) : s.table.findLive pid = s.findLive pid := rfl

theorem table_next (s : Kernel) (c : ℕ) : nextTask s c = s.table.next c := by
  have hnext : s.table.next c =
      if s.numTasks ≤ 1 then c else ((scanOrder s c).find? (isReady s)).getD c := rfl
  rw [hnext]
  unfold nextTask scheduleNext
  by_cases hn : s.numTasks ≤ 1
  · rw [if_pos hn, if_pos hn]
  · rw [if_neg hn, if_neg hn]
    cases (scanOrder s c).find? (isReady s) <;> rfl

theorem table_sysExit (hc : s.currentTask = some c) :
    s.table.call c .exit = some (sysExit s).table := by
  have htask (j : ℕ) : (exitTasks s c j).pid = (s.tasks j).pid ∧
      (exitTasks s c j).waitIdx = (s.tasks j).waitIdx ∧
      (exitTasks s c j).ipcCount = (s.tasks j).ipcCount ∧
      (exitTasks s c j).state = if j = c then .exited else
        if (s.tasks c).waitIdx = some j then .ready else (s.tasks j).state := by
    unfold exitTasks
    by_cases hj : j = c
    · simp [hj]
    · simp only [if_neg hj, true_and]
  rw [sysExit_eq hc]
  refine congrArg some (TaskTable.ext rfl rfl rfl ?_ ?_ ?_ ?_) <;> funext j
  · exact (htask j).1.symm
  · exact (htask j).2.2.2.symm
  · exact (htask j).2.1.symm
  · exact (htask j).2.2.1.symm

theorem table_sysWait (hc : s.currentTask = some c) (pid : ℕ) :
    s.table.call c (.wait pid) = some (sysWait s pid).2.table := by
  cases hi : s.findPid pid with
  | none => simp [TaskTable.call, table_findPid, sysWait, hi]
  | some i =>
    by_cases he : (s.tasks i).state = .exited
    · simp only [TaskTable.call, table_findPid, sysWait, hi, if_pos he]
      exact if_pos he
    · have hwait : s.table.call c (.wait pid) = some
          ({ s.table with waitIdx := fun j => if j = i then some c else s.table.waitIdx j }.setState
            c
            .blocked) := by
        simp only [TaskTable.call, table_findPid, hi]
        exact if_neg he
      rw [hwait, sysWait_blocks hc hi he, table_setState]
      congr 2
      simp only [Kernel.table, TaskTable.mk.injEq]
      refine ⟨rfl, rfl, rfl, ?_, ?_, ?_, ?_⟩ <;> funext j <;> simp only [Kernel.setTask_apply] <;>
        split <;> simp_all

theorem table_sysKill (s : Kernel) (c pid : ℕ) :
    s.table.call c (.kill pid) = some (sysKill s pid).2.table := by
  simp only [TaskTable.call, table_findLive, sysKill]
  cases s.findLive pid with
  | none => rfl
  | some i => exact congrArg some (table_setState s i .exited).symm

theorem table_sysClone (hc : s.currentTask = some c) (hpage : s.machine.freeStack ≠ 0)
    (hn : s.numTasks < maxTasks) (flags userStack entry arg : ℕ) :
    s.table.call c (.clone flags userStack entry arg) =
      some (sysClone s flags userStack entry arg).2.table := by
  have hn := Nat.not_le.mpr hn
  rw [TaskTable.call, if_neg (show ¬ maxTasks ≤ s.table.num from hn)]
  unfold sysClone
  split
  next hd => cases hc.symm.trans hd
  next d hd =>
    obtain rfl := Option.some.inj (hc.symm.trans hd)
    simp only [if_neg hn, pmmAllocPage, if_neg hpage]
    refine congrArg some (TaskTable.ext rfl rfl rfl ?_ ?_ ?_ ?_) <;> funext j <;>
      by_cases hj : j = s.numTasks <;> simp [Kernel.table, hj, newTask, ipcInitTask]

/-- The calls described by `TaskTable.call` do that to the kernel's table. -/
theorem syscallHandler_table (io : Ports) {call : Syscall} {t : TaskTable}
    (hc : s.currentTask = some c) (h : s.table.call c call = some t)
    (hpage : ∀ flags userStack entry arg, call = .clone flags userStack entry arg →
      s.machine.freeStack ≠ 0) :
    ∃ rax k, syscallHandler s io call = some (.done rax k) ∧ k.table = t := by
  cases call with
  | exit => exact ⟨_, _, rfl, Option.some.inj ((table_sysExit hc).symm.trans h)⟩
  | wait pid => exact ⟨_, _, rfl, Option.some.inj ((table_sysWait hc pid).symm.trans h)⟩
  | kill pid => exact ⟨_, _, rfl, Option.some.inj ((table_sysKill s c pid).symm.trans h)⟩
  | clone flags userStack entry arg =>
    have hn : s.numTasks < maxTasks := by
      by_contra hn
      cases (if_pos (Nat.not_lt.mp hn)).symm.trans h
    have ht := table_sysClone hc (hpage _ _ _ _ rfl) hn flags userStack entry arg
    exact ⟨_, _, rfl, Option.some.inj (ht.symm.trans h)⟩
  | yield => exact ⟨_, _, rfl, Option.some.inj h⟩
  | _ => cases h

theorem table_saveFrame (s : Kernel) (c : ℕ) (r : Registers) :
    (saveFrame s c r).table = s.table := by
  simp only [Kernel.table, saveFrame, TaskTable.mk.injEq]
  refine ⟨rfl, rfl, rfl, ?_, ?_, ?_, ?_⟩ <;> funext j <;> simp only [Kernel.setTask_apply] <;>
    split <;> simp_all

theorem table_dispatched (s : Kernel) (n : ℕ) :
    (dispatched s n).table = { s.table.setState n .running with current := some n } := by
  rw [← table_setState]
  rfl

/-- The end of a system call acts on the table as `reschedule` does. -/
theorem table_reschedule (s : Kernel) (c : ℕ) (r : Registers) :
    (dispatched (yieldCaller s c r) (nextTask (yieldCaller s c r) c)).table =
      s.table.reschedule c := by
  have hyield : (yieldCaller s c r).table =
      if s.table.state c ≠ .blocked ∧ s.table.state c ≠ .exited then s.table.setState c .ready
      else s.table := by
    have hsave := table_saveFrame s c r
    have hst : ((saveFrame s c r).tasks c).state = s.table.state c :=
      congrFun (congrArg TaskTable.state hsave) c
    unfold yieldCaller
    simp only [hst]
    split
    · rw [table_setState, hsave]
    · exact hsave
  rw [table_dispatched, table_next, hyield]
  rfl

end

theorem call_current {t t' : TaskTable} {c : ℕ} {request : Syscall}
    (h : t.call c request = some t') : t'.current = t.current := by
  unfold TaskTable.call at h
  repeat' split at h
  all_goals cases h
  all_goals rfl

theorem isrHandler_call (s : Kernel) (io : Ports) {r : Registers} (hr : r.intNo = 0x80) :
    isrHandler s io r = (syscallHandler s io r.syscall).map (finishSyscall r) := by
  simp [isrHandler, hr]

/-- A system call that returns, made by a running task. -/
theorem step_syscall {x : System} {io : Ports} {r r0 : Registers} {rax : ℕ} {k : Kernel}
    (hp : x.phase = .user r0) (hr : r.intNo = 0x80)
    (hk : syscallHandler x.kernel io r.syscall = some (.done rax k)) :
    step x (.trap io r) = some (afterSyscall k { r with rax := .ofNat rax }).system := by
  simp only [step, hp, isrHandler_call x.kernel io hr, hk, Option.map_some, finishSyscall]

theorem afterSyscall_eq {k : Kernel} {c : ℕ} {r : Registers} (hn : 1 < k.numTasks)
    (hc : k.currentTask = some c) :
    afterSyscall k r = dispatch (yieldCaller k c r) (nextTask (yieldCaller k c r) c) := by
  unfold afterSyscall
  rw [if_pos hn]
  split
  next hd => cases hc.symm.trans hd
  next d hd =>
    obtain rfl := Option.some.inj (hc.symm.trans hd)
    exact dispatch_scheduleNext _ c

/-- A trap for one of these calls takes the kernel's table where `TaskTable.step` says. -/
theorem step_table {x : System} (io : Ports) {r r0 : Registers} {t : TaskTable}
    (hp : x.phase = .user r0) (hr : r.intNo = 0x80) (h : x.kernel.table.step r.syscall = some t)
    (hpage : ∀ flags userStack entry arg, r.syscall = .clone flags userStack entry arg →
      x.kernel.machine.freeStack ≠ 0) :
    ∃ y r1, step x (.trap io r) = some y ∧ y.phase = .user r1 ∧ y.kernel.table = t := by
  obtain ⟨c, hc, h⟩ := Option.bind_eq_some_iff.mp h
  obtain ⟨t', ht', h⟩ := Option.bind_eq_some_iff.mp h
  obtain ⟨rax, k, hk, rfl⟩ := syscallHandler_table io hc ht' hpage
  by_cases hn : 1 < k.numTasks
  · obtain rfl := Option.some.inj ((if_pos hn).symm.trans h)
    have hkc : k.currentTask = some c := (call_current ht').trans hc
    have hs := step_syscall hp hr hk
    rw [afterSyscall_eq hn hkc, dispatch_eq] at hs
    exact ⟨_, _, hs, rfl, table_reschedule k c _⟩
  · cases (if_neg hn).symm.trans h

/-- System calls one after the other. -/
def TaskTable.steps (t : TaskTable) : List Registers → Option TaskTable
  | [] => some t
  | r :: rs => (t.step r.syscall).bind fun t => t.steps rs

def Syscall.isClone : Syscall → Bool
  | .clone .. => true
  | _ => false

/-- A frame of a system call that creates nothing. -/
def Registers.plainCall (r : Registers) : Bool := r.intNo == 0x80 && !r.syscall.isClone

/-- Whole runs follow the table as well. -/
theorem reach_table {x : System} {r0 : Registers} (io : Ports) {rs : List Registers} {t : TaskTable}
    (hp : x.phase = .user r0) (hr : ∀ r ∈ rs, r.plainCall) (h : x.kernel.table.steps rs = some t) :
    ∃ y r1, Runs.Reach step Runs.anyStep x y ∧ y.phase = .user r1 ∧ y.kernel.table = t := by
  induction rs generalizing x r0 with
  | nil => exact ⟨x, r0, .refl, hp, Option.some.inj h⟩
  | cons r rs ih =>
    obtain ⟨t1, h1, h⟩ := Option.bind_eq_some_iff.mp h
    obtain ⟨hr0, hr⟩ := List.forall_mem_cons.mp hr
    simp only [Registers.plainCall, Bool.and_eq_true, beq_iff_eq, Bool.not_eq_true'] at hr0
    obtain ⟨y, r1, hs, hp1, rfl⟩ := step_table io hp hr0.1 h1 fun a b c d hc => by
      rw [hc] at hr0
      cases hr0.2
    obtain ⟨z, r2, hz, hp2, hz2⟩ := ih hp1 hr h
    exact ⟨z, r2, (Runs.Reach.tail .refl trivial hs).trans hz, hp2, hz2⟩

end Mukrn
