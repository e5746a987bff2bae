import Mukrn.Table.Wake

/-! Blocking in `sys_wait`. The source keeps no reason for `TASK_BLOCKED`, so a record beside
the run says which slots are blocked in `sys_wait` and for which pid. -/
namespace Mukrn
open Runs

/-- For each slot the pid it is blocked on in `sys_wait`. -/
abbrev Waiting := ℕ → Option ℕ

/-- The pid the current task blocks on when this is its request. -/
def blockedOn (s : Kernel) : Request → Option ℕ
  | .call _ (.wait pid) => if (s.findPid pid).any s.live then some pid else none
  | _ => none

/-- A slot leaves the record when it is no longer blocked or when its task traps again. -/
def Waiting.record (x : System) (i : Input) (y : System) (g : Waiting) : Waiting := fun w =>
  if (y.kernel.tasks w).state ≠ .blocked then none
  else if x.kernel.currentTask = some w then blockedOn x.kernel i.request
  else g w

/-- States of runs from boot, with the record of who waits. -/
def WaitReach (ok : System × Waiting → Input → Prop) (z : System × Waiting) : Prop :=
  ∃ cfg x0, kmain cfg = some x0 ∧
    Reach (withGhost step Waiting.record) ok (x0, fun _ => none) z

theorem WaitReach.reachable {ok : System × Waiting → Input → Prop} {z : System × Waiting}
    (h : WaitReach ok z) : Reachable z.1 := by
  obtain ⟨cfg, x0, hk, hr⟩ := h
  exact ⟨cfg, x0, hk, hr.forget⟩

/-- Every task with this pid has exited. -/
def Ended (s : Kernel) (pid : ℕ) : Prop :=
  ∀ j < s.numTasks, (s.tasks j).pid = pid → (s.tasks j).state = .exited

theorem blockedOn_spec {s : Kernel} {q : Request} {pid : ℕ} (h : blockedOn s q = some pid) :
    ∃ io j, q = .call io (.wait pid) ∧ s.findPid pid = some j ∧ (s.tasks j).state ≠ .exited := by
  unfold blockedOn at h
  split at h
  next io p =>
    split at h
    next hl =>
      obtain rfl := Option.some.inj h
      cases hj : s.findPid p with
      | none => simp [hj] at hl
      | some j => exact ⟨io, j, rfl, rfl, by simpa [hj, Kernel.live] using hl⟩
    · cases h
  · cases h

theorem Waiting.record_spec {x y : System} {i : Input} {g : Waiting} {w pid : ℕ}
    (h : g.record x i y w = some pid) :
    (y.kernel.tasks w).state = .blocked ∧
      ((x.kernel.currentTask = some w ∧ blockedOn x.kernel i.request = some pid) ∨
        (x.kernel.currentTask ≠ some w ∧ g w = some pid)) := by
  unfold Waiting.record at h
  split at h
  · cases h
  next hb =>
    refine ⟨not_not.mp hb, ?_⟩
    split at h
    next hc => exact .inl ⟨hc, h⟩
    next hc => exact .inr ⟨hc, h⟩

/-- Recorded slots are blocked. -/
theorem WaitReach.blocked {ok : System × Waiting → Input → Prop} {z : System × Waiting}
    (h : WaitReach ok z) {w pid : ℕ} (hw : z.2 w = some pid) :
    (z.1.kernel.tasks w).state = .blocked := by
  obtain ⟨cfg, x0, -, hr⟩ := h
  cases hr with
  | refl => cases hw
  | @tail t _ i _ _ hu =>
    obtain ⟨-, hg⟩ := withGhost_eq_some.mp hu
    rw [hg] at hw
    exact (Waiting.record_spec hw).1

/-- The operation is performed by an interrupt or by another task than the one in slot `w`. -/
def ByOther (s : Kernel) (w : ℕ) : WakeOp → Prop
  | .keyboard _ => True
  | _ => s.currentTask ≠ some w

theorem WakeOp.sameTasks {s k : Kernel} {c : ℕ} {op : WakeOp} (hc : s.currentTask = some c)
    (h : op.apply s = some k) : SameTasks s k := by
  cases op with
  | exit =>
    obtain rfl := Option.some.inj h
    exact .sysExit hc
  | send p t d l =>
    obtain ⟨res, hres, rfl⟩ := Option.map_eq_some_iff.mp h
    rcases sysSend_cases hres with rfl | ⟨i, bytes, -, -, -, rfl⟩
    · exact .refl s
    · exact .setTask rfl
  | keyboard sc =>
    obtain rfl := Option.some.inj h
    exact SameTasks.irqEffect s ⟨fun _ => sc, fun _ => 0⟩ 33
  | futexWake uaddr val =>
    obtain ⟨res, hres, rfl⟩ := Option.map_eq_some_iff.mp h
    simp only [sysFutex, hc, if_neg (by decide : ¬ (1 : ℤ) = 0), if_true] at hres
    obtain rfl := Option.some.inj hres
    obtain ⟨st, l, he, -⟩ := futexWakeLoop_woken uaddr (toInt val) s.futexWaiters.length 0 0 s
    rw [he]
    exact ⟨rfl, rfl, fun _ => rfl⟩

/-- Which pids have ended after an operation that wakes a blocked slot. -/
theorem ended_after_iff {s k : Kernel} {c w pid : ℕ} {op : WakeOp} (hn : Numbered s)
    (hs : Scheduled s c) (h : op.apply s = some k) (hb : (s.tasks w).state = .blocked)
    (hw : Wakes s c w op) :
    Ended k pid ↔ Ended s pid ∨ (op = .exit ∧ (s.tasks c).pid = pid) := by
  have hsame := WakeOp.sameTasks hs.current h
  by_cases hop : op = .exit
  · subst hop
    obtain rfl := Option.some.inj h
    simp only [true_and]
    obtain ⟨hi, hwc⟩ := hw
    constructor
    · intro hk
      by_cases hp : (s.tasks c).pid = pid
      · exact .inr hp
      refine .inl fun j hj hjp => ?_
      have hjc : j ≠ c := fun he => hp (he ▸ hjp)
      have hst := hk j (hsame.numTasks ▸ hj) ((hsame.pid j).trans hjp)
      rw [sysExit_state hs.current, if_neg hjc] at hst
      split at hst
      · cases hst
      · exact hst
    · intro hor j hj hjp
      rw [hsame.numTasks] at hj
      rw [hsame.pid] at hjp
      rw [sysExit_state hs.current]
      by_cases hjc : j = c
      · rw [if_pos hjc]
      rw [if_neg hjc]
      rcases hor with he | hp
      · have hst := he j hj hjp
        have hjw : (s.tasks c).waitIdx ≠ some j := by
          intro hij
          obtain rfl := Option.some.inj (hi.symm.trans hij)
          rw [hb] at hst
          cases hst
        rw [if_neg hjw, hst]
      · exact absurd (hn.pid_inj hj hs.lt (hjp.trans hp.symm)) hjc
  · have hst (j : ℕ) : (k.tasks j).state = .exited ↔ (s.tasks j).state = .exited := by
      rcases WakeOp.state hs.current h hop j with ⟨hb, -, hr⟩ | ⟨-, he⟩
      · simp [hb, hr]
      · rw [he]
    simp only [Ended, hop, false_and, or_false, hst, hsame.numTasks, hsame.pid]

/-- Each task has at most one waiter at a time: a `sys_wait` blocks only on a pid nobody else
waits for and not on the caller, and a `sys_wait_any` blocks only while every other task in
`sys_wait` waits for its caller. -/
def WaitsAlone (z : System × Waiting) (i : Input) : Prop :=
  ∀ c, z.1.kernel.currentTask = some c →
    match i.request with
    | .call _ (.wait pid) =>
      ∀ j, z.1.kernel.findPid pid = some j → (z.1.kernel.tasks j).state ≠ .exited →
        j ≠ c ∧ ∀ w, w ≠ c → z.2 w ≠ some pid
    | .call _ .waitAny =>
      (∀ j < z.1.kernel.numTasks, j ≠ c → (z.1.kernel.tasks j).state ≠ .exited) →
        ∀ w pid, w ≠ c → z.2 w = some pid → pid = (z.1.kernel.tasks c).pid
    | _ => True

theorem WaitReach.mono {ok ok' : System × Waiting → Input → Prop} {z : System × Waiting}
    (h : WaitReach ok z) (hok : ∀ z i, ok z i → ok' z i) : WaitReach ok' z := by
  obtain ⟨cfg, x0, hk, hr⟩ := h
  exact ⟨cfg, x0, hk, hr.mono hok⟩

/-- The sample boot, a thread created and the thread waiting for its parent. -/
private theorem sample_waiting : ∃ z g r, WaitReach WaitsAlone (z, g) ∧ z.phase = .user r ∧
    z.kernel.currentTask = some 0 ∧ z.kernel.numTasks = 2 ∧ (z.kernel.tasks 0).state = .running ∧
    (z.kernel.tasks 0).pid = 1 ∧ (z.kernel.tasks 1).pid = 8 ∧
    (z.kernel.tasks 1).state = .blocked ∧ (z.kernel.tasks 1).ipcCount = 0 ∧ g 1 = some 1 ∧
    ∀ w pid, g w = some pid → pid = 1 := by
  obtain ⟨x, h, f, y, r, use, fl, hk, -, hstep, hy, hty, -⟩ := sample_cloned
  have hty := Option.some.inj hty
  obtain ⟨z, r1, hstep', hz, ht⟩ := step_table (x := y) (r := .call 7 1 0 0 0) quietPorts hy rfl
    (by rw [← hty]; rfl) nofun
  have hyc : y.kernel.currentTask = some 1 := congrArg TaskTable.current hty.symm
  have hfind : y.kernel.findPid 1 = some 0 := by
    rw [← table_findPid, ← hty]
    rfl
  have hy0 : (y.kernel.tasks 0).state = .ready := congrFun (congrArg TaskTable.state hty.symm) 0
  have hz1 : (z.kernel.tasks 1).state = .blocked := congrFun (congrArg TaskTable.state ht) 1
  have hnone (w : ℕ) : (y.kernel.tasks w).state ≠ .blocked := by
    rw [show (y.kernel.tasks w).state = y.kernel.table.state w from rfl, ← hty]
    match w with
    | 0 => exact nofun
    | 1 => exact nofun
    | n + 2 => exact nofun
  refine ⟨z, _, r1, ⟨_, x, hk, .tail (.tail .refl ?_ (withGhost_eq_some.mpr ⟨hstep, rfl⟩)) ?_
    (withGhost_eq_some.mpr ⟨hstep', rfl⟩)⟩, hz, congrArg TaskTable.current ht,
    congrArg TaskTable.num ht, congrFun (congrArg TaskTable.state ht) 0,
    congrFun (congrArg TaskTable.pid ht) 0, congrFun (congrArg TaskTable.pid ht) 1, hz1,
    congrFun (congrArg TaskTable.ipcCount ht) 1, ?_, ?_⟩
  · exact fun _ _ => trivial
  · intro c hc j hj _
    obtain rfl := Option.some.inj (hyc.symm.trans hc)
    obtain rfl := Option.some.inj (hfind.symm.trans hj)
    refine ⟨by decide, fun w _ => ?_⟩
    simp only [Waiting.record, if_pos (hnone w)]
    exact nofun
  · simp only [Waiting.record, hz1, ne_eq, not_true_eq_false, if_false, hyc, if_true]
    change (if (y.kernel.findPid 1).any y.kernel.live then some 1 else none) = some 1
    rw [hfind, if_pos (by simp [Kernel.live, hy0])]
  · intro w pid hw
    rcases (Waiting.record_spec hw).2 with ⟨-, hblock⟩ | ⟨-, hold⟩
    · obtain ⟨io, j, hq, -⟩ := blockedOn_spec hblock
      obtain ⟨-, hcall⟩ := Request.call.inj hq
      exact (Syscall.wait.inj hcall).symm
    · have hb := (Waiting.record_spec hold).1
      exact absurd hb (hnone w)

/-- Slot `w` is blocked in `sys_wait` for a task that has not exited. -/
def WaitsForLive (s : Kernel) (g : Waiting) (w : ℕ) : Prop := ∃ pid, g w = some pid ∧ ¬ Ended s pid

/-- The wake operations of slot `c`, or of the keyboard, that end a `sys_wait` early. -/
def EndsWait (s : Kernel) (g : Waiting) (c : ℕ) : WakeOp → Prop
  -- The waiter recorded in the exiting task waits for another one by now.
  | .exit => ∃ w pid, (s.tasks c).waitIdx = some w ∧ w ≠ c ∧ g w = some pid ∧
      pid ≠ (s.tasks c).pid ∧ ¬ Ended s pid
  -- A message goes to a waiting task that has room for it.
  | .send targetPid _ _ _ => ∃ w ≠ c, s.findLive targetPid = some w ∧
      (s.tasks w).ipcCount < ipcQueueSize ∧ WaitsForLive s g w
  -- The keyboard belongs to a waiting task that has room for a message.
  | .keyboard _ => ∃ w < maxTasks, s.irqHandlers 1 = some w ∧
      (s.tasks w).ipcCount < ipcQueueSize ∧ WaitsForLive s g w
  -- The futex table still has an entry of a waiting task, and the wake comes to it.
  | .futexWake uaddr val => ∃ w ≠ c, Reaches s uaddr (toInt val) s.futexWaiters w ∧
      WaitsForLive s g w

/-- Slot `w` waits for a live task, and the operation wakes it. -/
private theorem endsWait_iff {x : System} {g : Waiting} {c : ℕ} {op : WakeOp}
    (hx : WaitReach anyStep (x, g)) (hc : x.kernel.currentTask = some c) :
    EndsWait x.kernel g c op ↔ ∃ w pid, g w = some pid ∧ ByOther x.kernel w op ∧
      Wakes x.kernel c w op ∧ ¬ (Ended x.kernel pid ∨
        (op = .exit ∧ (x.kernel.tasks c).pid = pid)) := by
  have hother (w : ℕ) : x.kernel.currentTask ≠ some w ↔ w ≠ c := by
    rw [hc, ne_eq, Option.some.injEq]
    exact not_congr eq_comm
  cases op with
  | exit =>
    constructor
    · rintro ⟨w, pid, hi, hwc, hg, hp, he⟩
      exact ⟨w, pid, hg, (hother w).mpr hwc, ⟨hi, hwc⟩, fun h => h.elim he fun h => hp h.2.symm⟩
    · rintro ⟨w, pid, hg, -, ⟨hi, hwc⟩, hno⟩
      exact ⟨w, pid, hi, hwc, hg, fun h => hno (.inr ⟨rfl, h.symm⟩), fun h => hno (.inl h)⟩
  | send p t d l =>
    constructor
    · rintro ⟨w, hwc, hf, hroom, pid, hg, he⟩
      exact ⟨w, pid, hg, (hother w).mpr hwc, ⟨hf, hroom⟩, fun h => h.elim he fun h => by cases h.1⟩
    · rintro ⟨w, pid, hg, ho, ⟨hf, hroom⟩, hno⟩
      exact ⟨w, (hother w).mp ho, hf, hroom, pid, hg, fun h => hno (.inl h)⟩
  | keyboard sc =>
    constructor
    · rintro ⟨w, hlt, hi, hroom, pid, hg, he⟩
      have hlive : x.kernel.live w := by
        have hb : (x.kernel.tasks w).state = .blocked := hx.blocked hg
        simp [Kernel.live, hb]
      exact ⟨w, pid, hg, trivial, ⟨hi, hlt, hlive, hroom⟩, fun h => h.elim he fun h => by cases h.1⟩
    · rintro ⟨w, pid, hg, -, ⟨hi, hlt, -, hroom⟩, hno⟩
      exact ⟨w, hlt, hi, hroom, pid, hg, fun h => hno (.inl h)⟩
  | futexWake uaddr val =>
    constructor
    · rintro ⟨w, hwc, hr, pid, hg, he⟩
      exact ⟨w, pid, hg, (hother w).mpr hwc, hr, fun h => h.elim he fun h => by cases h.1⟩
    · rintro ⟨w, pid, hg, ho, hr, hno⟩
      exact ⟨w, (hother w).mp ho, hr, pid, hg, fun h => hno (.inl h)⟩

/-- A wake operation by another task or an interrupt leaves every `sys_wait` for a live task
blocked, unless it is one of those above. -/
theorem wait_not_ended_early_iff {x : System} {g : Waiting} {c : ℕ} {op : WakeOp} {k : Kernel}
    (hx : WaitReach anyStep (x, g)) (hc : x.kernel.currentTask = some c)
    (h : op.apply x.kernel = some k) :
    (∀ w pid, g w = some pid → ByOther x.kernel w op → (k.tasks w).state = .ready →
        Ended k pid) ↔ ¬ EndsWait x.kernel g c op := by
  obtain ⟨hs, hn⟩ := hx.reachable.table hc
  rw [endsWait_iff hx hc]
  constructor
  · rintro hall ⟨w, pid, hg, ho, hw, hno⟩
    have hb : (x.kernel.tasks w).state = .blocked := hx.blocked hg
    have hr := (WakeOp.ready_iff hc h hb).mpr hw
    exact hno ((ended_after_iff hn hs h hb hw).mp (hall w pid hg ho hr))
  · intro hall w pid hg ho hr
    have hb : (x.kernel.tasks w).state = .blocked := hx.blocked hg
    have hw := (WakeOp.ready_iff hc h hb).mp hr
    refine (ended_after_iff hn hs h hb hw).mpr ?_
    by_contra hno
    exact hall ⟨w, pid, hg, ho, hw, hno⟩

/-- The exit of the awaited task ends the wait of the thread, and properly so. -/
theorem wait_not_ended_early_iff_sample : ∃ x g k, WaitReach anyStep (x, g) ∧ g 1 = some 1 ∧
    WakeOp.exit.apply x.kernel = some k ∧
    ∀ w pid, g w = some pid → ByOther x.kernel w .exit → (k.tasks w).state = .ready →
      Ended k pid := by
  obtain ⟨z, g, r, hz, -, hc, hn, hs0, hp0, hp1, -, -, hg, hother⟩ := sample_waiting
  have hz : WaitReach anyStep (z, g) := hz.mono fun _ _ _ => trivial
  refine ⟨z, g, _, hz, hg, rfl, (wait_not_ended_early_iff hz hc rfl).mpr ?_⟩
  rintro ⟨w, pid, -, hwc, hgw, hp, -⟩
  rw [hp0] at hp
  exact hp (hother w pid hgw)

/-- A message from the awaited task itself ends the wait while that task runs on. -/
theorem send_ends_wait : ∃ x g k w pid, WaitReach anyStep (x, g) ∧
    (WakeOp.send 8 0 0 0).apply x.kernel = some k ∧ g w = some pid ∧
    x.kernel.currentTask ≠ some w ∧ (x.kernel.tasks w).state = .blocked ∧
    (k.tasks w).state = .ready ∧ ¬ Ended k pid := by
  obtain ⟨z, g, r, hz, -, hc, hn, hs0, hp0, hp1, hb, hq, hg, -⟩ := sample_waiting
  have hfind : z.kernel.findLive 8 = some 1 := by
    simp [Kernel.findLive, hn, List.range_succ, hp0, hp1, Kernel.live, hb]
  have hsend : (WakeOp.send 8 0 0 0).apply z.kernel = some (z.kernel.setTask 1
      ((z.kernel.tasks 1).enqueue z.kernel.currentPid 0 0 fun i => [].getD i 0)) := by
    simp [WakeOp.apply, sysSend, hfind, hq, ipcQueueSize, readUserBytes]
  refine ⟨z, g, _, 1, 1, hz.mono fun _ _ _ => trivial, hsend, hg, by rw [hc]; decide, hb, ?_, ?_⟩
  · simp [Task.enqueue, hb]
  · intro he
    have h0 := he 0 (by simp [hn]) (by simpa using hp0)
    simp [hs0] at h0

/-- Every recorded waiter is the one its target would wake. -/
def WaitersKnown (z : System × Waiting) : Prop :=
  ∀ w pid, z.2 w = some pid →
    ∃ j < z.1.kernel.numTasks, (z.1.kernel.tasks j).pid = pid ∧
      (z.1.kernel.tasks j).waitIdx = some w ∧ j ≠ w

/-- The waiter field of a slot in use changes only in a blocking `wait` or `wait_any`. -/
theorem CallEffect.waitIdx {s : Kernel} {c j : ℕ} {call : Syscall} {o : SysOutcome}
    (he : CallEffect s c call o) (hc : s.currentTask = some c) (hj : j < s.numTasks) :
    (o.kernel.tasks j).waitIdx = (s.tasks j).waitIdx ∨
      (∃ pid, call = .wait pid ∧ s.findPid pid = some j ∧ (s.tasks j).state ≠ .exited) ∨
      (call = .waitAny ∧ j ≠ c ∧
        ∀ i < s.numTasks, i ≠ c → (s.tasks i).state ≠ .exited) := by
  have hset {s' : Kernel} {i : ℕ} {t : Task} (ht : t.waitIdx = (s'.tasks i).waitIdx) :
      ((s'.setTask i t).tasks j).waitIdx = (s'.tasks j).waitIdx := by
    rw [Kernel.setTask_apply]
    split
    next hji => rw [hji, ht]
    · rfl
  have hspawn {s' : Kernel} (hs : Spawned s s') : (s'.tasks j).waitIdx = (s.tasks j).waitIdx := by
    obtain ⟨m, kstack, pml4, la, cp, rfl, -⟩ := hs
    simp only [addTask, Option.getD_none, Kernel.setTask_apply, if_neg hj.ne]
  cases he with
  | quiet hq =>
    obtain ⟨m, b, rfl, -⟩ := hq
    exact .inl rfl
  | exit =>
    refine .inl ?_
    simp only [SysOutcome.kernel, sysExit_eq hc, exitTasks]
    split
    next hjc => rw [hjc]
    · rfl
  | send => exact .inl (hset rfl)
  | recv => exact .inl (hset rfl)
  | @wait pid i rax hi hl =>
    by_cases hji : j = i
    · exact .inr (.inl ⟨pid, rfl, hji ▸ hi, hji ▸ hl⟩)
    · refine .inl ?_
      simp only [SysOutcome.kernel, Kernel.setState_apply, Kernel.setTask_apply, if_neg hji]
  | waitAny hl =>
    by_cases hjc : j = c
    · refine .inl ?_
      simp only [SysOutcome.kernel, Kernel.setState_apply, waitAnyTasks, hjc, ne_eq,
        not_true_eq_false, and_false, if_false]
    · exact .inr (.inr ⟨rfl, hjc, hl⟩)
  | irqRegister => exact .inl rfl
  | kill => exact .inl (hset rfl)
  | clone hs => exact .inl (hspawn hs)
  | spawnAt hs => exact .inl (hspawn hs)
  | futexWait => exact .inl (hset rfl)
  | futexWake hw =>
    obtain ⟨st, l, rfl, -⟩ := hw
    exact .inl rfl
  | nanosleep => exact .inl ((sysNanosleep_sameTable ..).waitIdx j)
  | shutdown => exact .inl rfl

theorem Served.waitIdx {x : System} {c j : ℕ} {q : Request} {k : Kernel} (hs : Served x q k)
    (hc : x.kernel.currentTask = some c) (hj : j < x.kernel.numTasks) :
    (k.tasks j).waitIdx = (x.kernel.tasks j).waitIdx ∨
      (∃ io pid, q = .call io (.wait pid) ∧ x.kernel.findPid pid = some j ∧
        (x.kernel.tasks j).state ≠ .exited) ∨
      ∃ io, q = .call io .waitAny ∧ j ≠ c ∧
        ∀ i < x.kernel.numTasks, i ≠ c → (x.kernel.tasks i).state ≠ .exited := by
  have hirq (io : Ports) (n : ℕ) :
      ((irqEffect x.kernel io n).tasks j).waitIdx = (x.kernel.tasks j).waitIdx := by
    unfold irqEffect keyboardIrq
    split
    · rfl
    · split
      · split
        · rfl
        · split
          · rw [Kernel.setTask_apply]
            split
            next hji => rw [hji]; rfl
            · rfl
          · rfl
      · rfl
  cases hs with
  | none => exact .inl rfl
  | store => exact .inl rfl
  | fault =>
    exact .inl (((CallEffect.exit (s := x.kernel) (c := c)).waitIdx hc hj).elim id
      fun h => by rcases h with ⟨p, h, -⟩ | ⟨h, -⟩ <;> cases h)
  | irq => exact .inl (hirq _ _)
  | asleep => exact .inl (((sleepLoop_sameTable ..).waitIdx j).trans (hirq _ _))
  | call ho =>
    rcases (syscallHandler_effect hc ho).waitIdx hc hj with h | ⟨pid, rfl, h⟩ | ⟨rfl, h⟩
    · exact .inl h
    · exact .inr (.inl ⟨_, pid, rfl, h⟩)
    · exact .inr (.inr ⟨_, rfl, h⟩)

/-- A task that waits alone stays known to the task it waits for. -/
theorem WaitersKnown.step {x y : System} {g : Waiting} {i : Input} {c : ℕ}
    (h : WaitersKnown (x, g)) (hsch : Scheduled x.kernel c) (hnum : Numbered x.kernel)
    (hok : WaitsAlone (x, g) i) (hs : step x i = some y) :
    WaitersKnown (y, g.record x i y) := by
  obtain ⟨k, hk, hf⟩ := step_finish hs
  have hserved := serve_cases hk
  have hok := hok c hsch.current
  have hfin := hf.sameTable
  have hslot (j : ℕ) (hj : j < x.kernel.numTasks) :
      j < y.kernel.numTasks ∧ (y.kernel.tasks j).pid = (x.kernel.tasks j).pid :=
    (step_slot hs hsch.current hj).imp_right (congrArg Prod.fst)
  intro w pid hw
  obtain ⟨-, ⟨hcw, hb⟩ | ⟨hcw, hg⟩⟩ := Waiting.record_spec hw
  · -- the current task has just blocked
    obtain rfl := Option.some.inj (hsch.current.symm.trans hcw)
    obtain ⟨io, j, hq, hj, hl⟩ := blockedOn_spec hb
    simp only [hq] at hok
    obtain ⟨hjc, -⟩ := hok j hj hl
    obtain ⟨hjn, hjp⟩ := Kernel.findPid_spec hj
    obtain ⟨hyn, hyp⟩ := hslot j hjn
    refine ⟨j, hyn, hyp.trans hjp, ?_, hjc⟩
    rw [hfin.waitIdx]
    rw [hq] at hserved
    cases hserved with
    | call ho =>
      obtain rfl := Option.some.inj ho
      rw [sysWait_blocks hsch.current hj hl]
      simp only [returnInt, SysOutcome.kernel, Kernel.setState_apply, Kernel.setTask_apply, if_true]
  · obtain ⟨j, hjn, hjp, hjw, hne⟩ := h w pid hg
    obtain ⟨hyn, hyp⟩ := hslot j hjn
    refine ⟨j, hyn, hyp.trans hjp, ?_, hne⟩
    rw [hfin.waitIdx]
    have hwc : w ≠ c := fun he => hcw (he ▸ hsch.current)
    rcases hserved.waitIdx hsch.current hjn with he | ⟨io, p, hq, hfp, hl⟩ | ⟨io, hq, hjc, hl⟩
    · exact he.trans hjw
    · -- a second waiter for the same task is excluded
      simp only [hq] at hok
      have hpp : p = pid := (Kernel.findPid_spec hfp).2.symm.trans hjp
      exact absurd hg (hpp ▸ (hok j hfp hl).2 w hwc)
    · simp only [hq] at hok
      have hpc := hok hl w pid hwc hg
      exact absurd (hnum.pid_inj hjn hsch.lt (hjp.trans hpc)) hjc

theorem WaitReach.known {z : System × Waiting} (h : WaitReach WaitsAlone z) : WaitersKnown z := by
  obtain ⟨cfg, x0, hk, hr⟩ := h
  have hinv : HaltedOrNumbered z.1 ∧ WaitersKnown z := by
    refine hr.invariant (P := fun z => HaltedOrNumbered z.1 ∧ WaitersKnown z)
      ⟨kmain_cases hk, fun _ _ h => by cases h⟩ ?_
    rintro ⟨x, g⟩ i ⟨y, g'⟩ ⟨hx, hw⟩ hok hstep
    obtain ⟨hu, rfl⟩ := withGhost_eq_some.mp hstep
    refine ⟨hx.step hu, ?_⟩
    rcases hx with ⟨hp, -⟩ | ⟨⟨c, hc⟩, hn⟩
    · rw [step_stopped hp] at hu
      cases hu
    · exact hw.step hc hn hok hu
  exact hinv.2

/-- While tasks wait alone, every task blocked in `sys_wait(p)` is ready after the task with
pid `p` has executed `sys_exit`, in every reachable state. -/
theorem exit_wakes_all_waiters {x : System} {g : Waiting} {c w : ℕ}
    (hx : WaitReach WaitsAlone (x, g)) (hc : x.kernel.currentTask = some c)
    (hw : g w = some (x.kernel.tasks c).pid) : ((sysExit x.kernel).tasks w).state = .ready := by
  obtain ⟨hs, hn⟩ := hx.reachable.table hc
  obtain ⟨j, hj, hjp, hjw, hne⟩ := hx.known w _ hw
  obtain rfl := hn.pid_inj hj hs.lt hjp
  rw [sysExit_state hc, if_neg hne.symm, if_pos hjw]

theorem exit_wakes_all_waiters_sample : ∃ x g, WaitReach WaitsAlone (x, g) ∧
    x.kernel.currentTask = some 0 ∧ g 1 = some (x.kernel.tasks 0).pid ∧
    ((sysExit x.kernel).tasks 1).state = .ready := by
  obtain ⟨z, g, r, hz, -, hc, -, -, hp0, -, -, -, hg, -⟩ := sample_waiting
  have hw : g 1 = some (z.kernel.tasks 0).pid := by rw [hg, hp0]
  exact ⟨z, g, hz, hc, hw, exit_wakes_all_waiters hz hc hw⟩

/-- Two threads wait for the first task one after the other; its exit wakes the second only. -/
theorem exit_forgets_waiter : ∃ x g c w, WaitReach anyStep (x, g) ∧
    x.kernel.currentTask = some c ∧ g w = some (x.kernel.tasks c).pid ∧
    (x.kernel.tasks w).state = .blocked ∧ ((sysExit x.kernel).tasks w).state = .blocked := by
  obtain ⟨x, h, f, y, r, use, fl, hk, -, hstep1, hy, hty, hs, -, -, hlen, -⟩ := sample_cloned
  have hty := Option.some.inj hty
  have hc1 : y.kernel.currentTask = some 1 := congrArg TaskTable.current hty.symm
  have hn1 : y.kernel.numTasks = 2 := congrArg TaskTable.num hty.symm
  cases fl with
  | nil => exact absurd hlen (by decide)
  | cons f' fl =>
  obtain ⟨-, y2, r2, -, hstep2, hy2, ht2, -⟩ := step_clone quietPorts (.call 21 0 0 0 0) hs hc1
    (by omega) hy (by rw [hn1]; decide) rfl rfl
  rw [← hty] at ht2
  have ht2 := Option.some.inj ht2
  obtain ⟨y3, r3, hstep3, hy3, ht3⟩ := step_table (x := y2)
    (r := .call 7 1 0 0 0) quietPorts hy2 rfl
    (by rw [← ht2]; rfl) nofun
  obtain ⟨y4, r4, hstep4, hy4, ht4⟩ := step_table (x := y3) (r := .call 27 0 0 0 0) quietPorts hy3
    rfl (by rw [ht3]; rfl) nofun
  obtain ⟨y5, r5, hstep5, hy5, ht5⟩ := step_table (x := y4)
    (r := .call 7 1 0 0 0) quietPorts hy4 rfl
    (by rw [ht4]; rfl) nofun
  have hc2 : y2.kernel.currentTask = some 2 := congrArg TaskTable.current ht2.symm
  have hc3 : y3.kernel.currentTask = some 0 := congrArg TaskTable.current ht3
  have hc4 : y4.kernel.currentTask = some 1 := congrArg TaskTable.current ht4
  have hc5 : y5.kernel.currentTask = some 0 := congrArg TaskTable.current ht5
  have hb3 : (y3.kernel.tasks 2).state = .blocked := congrFun (congrArg TaskTable.state ht3) 2
  have hb4 : (y4.kernel.tasks 2).state = .blocked := congrFun (congrArg TaskTable.state ht4) 2
  have hb5 : (y5.kernel.tasks 2).state = .blocked := congrFun (congrArg TaskTable.state ht5) 2
  have hp5 : (y5.kernel.tasks 0).pid = 1 := congrFun (congrArg TaskTable.pid ht5) 0
  have hw5 : (y5.kernel.tasks 0).waitIdx = some 1 := congrFun (congrArg TaskTable.waitIdx ht5) 0
  have hfind : y2.kernel.findPid 1 = some 0 := by
    rw [← table_findPid, ← ht2]
    rfl
  have hlive : y2.kernel.live 0 := by
    have h0 : (y2.kernel.tasks 0).state = .ready := congrFun (congrArg TaskTable.state ht2.symm) 0
    simp [Kernel.live, h0]
  have hrun : WaitReach anyStep (y5, _) := ⟨_, x, hk,
    .tail (.tail (.tail (.tail (.tail .refl trivial
    (withGhost_eq_some.mpr ⟨hstep1, rfl⟩)) trivial (withGhost_eq_some.mpr ⟨hstep2, rfl⟩)) trivial
    (withGhost_eq_some.mpr ⟨hstep3, rfl⟩)) trivial (withGhost_eq_some.mpr ⟨hstep4, rfl⟩)) trivial
    (withGhost_eq_some.mpr ⟨hstep5, rfl⟩)⟩
  refine ⟨y5, _, 0, 2, hrun, hc5, ?_, hb5, ?_⟩
  · simp only [Waiting.record, hb5, hb4, hb3, hc4, hc3, hc2, hp5, ne_eq, not_true_eq_false,
      if_false,
      Option.some.injEq, OfNat.one_ne_ofNat, OfNat.zero_ne_ofNat, if_true]
    change (if (y2.kernel.findPid 1).any y2.kernel.live then some 1 else none) = some 1
    rw [hfind, if_pos (by simpa using hlive)]
  · rw [sysExit_state hc5, if_neg (by decide), hw5, if_neg (by decide), hb5]

end Mukrn
