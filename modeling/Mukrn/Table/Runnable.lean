import Mukrn.Table.Pids

/-! Which task `isr_handler` returns to, and when that task is runnable. -/
namespace Mukrn
open Runs

/-- Neither blocked nor exited. -/
def Runnable (s : Kernel) (i : ℕ) : Prop :=
  (s.tasks i).state ≠ .blocked ∧ (s.tasks i).state ≠ .exited

instance (s : Kernel) (i : ℕ) : Decidable (Runnable s i) := by
  unfold Runnable
  infer_instance

/-- The choice at the end of the `0x80` branch. -/
def callChoice (r : Registers) : SysOutcome → Option (Kernel × ℕ)
  | .done rax s =>
    s.currentTask.map fun c =>
      let s' := yieldCaller s c { r with rax := .ofNat rax }
      if 1 < s.numTasks then (s', nextTask s' c) else (s, c)
  | _ => none

/-- The choice of vectors 32 to 47 once the interrupt's own work is done. -/
def irqChoice (s : Kernel) (n : ℕ) (r : Registers) : Option (Kernel × ℕ) :=
  s.currentTask.map fun c =>
    if n = 32 ∧ 1 < s.numTasks ∧ r.fromUser then (preempt s c r, nextTask (preempt s c r) c)
    else (s, c)

/-- The state in which `isr_handler` settles whose frame it returns, and that slot. `none`
when it returns no frame or is not entered. -/
def choice (x : System) (i : Input) : Option (Kernel × ℕ) :=
  match x.phase, i with
  | .user _, .trap _ r =>
    match i.request with
    | .none =>
      if r.intNo.toNat ≤ 31 then none else x.kernel.currentTask.map fun c => (x.kernel, c)
    | .store _ _ => none
    | .fault =>
      let s := sysExit x.kernel
      ((List.range s.numTasks).find? (isReady s)).map fun n => (s, n)
    | .irq io n => irqChoice (irqEffect x.kernel io n) n r
    | .call io call => (syscallHandler x.kernel io call).bind (callChoice r)
  | .asleep r start target, .irq io n =>
    if 32 ≤ n ∧ n ≤ 47 then callChoice r (sleepLoop (irqEffect x.kernel io n) start target)
    else none
  | _, _ => none

/-- An outcome that resumes slot `n` after a choice made in state `k`. -/
def Outcome.Follows (o : Outcome) (k : Kernel) (n : ℕ) : Prop :=
  (∃ r, o = .resume k r ∧ k.currentTask = some n) ∨ o = dispatch k n

theorem Outcome.Follows.current {o : Outcome} {k : Kernel} {n : ℕ} (h : o.Follows k n) :
    o.system.kernel.currentTask = some n := by
  rcases h with ⟨r, rfl, hn⟩ | rfl
  · exact hn
  · rw [dispatch_eq]
    rfl

/-- A runnable task that is chosen is still runnable when it is resumed. -/
theorem Outcome.Follows.runnable {o : Outcome} {k : Kernel} {n : ℕ} (h : o.Follows k n)
    (hr : Runnable k n) : Runnable o.system.kernel n := by
  rcases h with ⟨r, rfl, -⟩ | rfl
  · exact hr
  · rw [dispatch_eq]
    simp [Runnable, Outcome.system, dispatched]

/-- An outcome and a choice fit together: both are there, or no frame is returned. -/
def Fits (o : Outcome) (ch : Option (Kernel × ℕ)) : Prop :=
  (∃ k n, ch = some (k, n) ∧ o.Follows k n) ∨ (ch = none ∧ ∀ r, o.system.phase ≠ .user r)

theorem finishSyscall_fits {o : SysOutcome} {c : ℕ} (r : Registers)
    (hc : o.kernel.currentTask = some c) : Fits (finishSyscall r o) (callChoice r o) := by
  cases o with
  | asleep s start target => exact .inr ⟨rfl, nofun⟩
  | stopped s => exact .inr ⟨rfl, nofun⟩
  | done rax s =>
    have hc : s.currentTask = some c := hc
    simp only [finishSyscall, callChoice, afterSyscall, hc, Option.map_some]
    by_cases hn : 1 < s.numTasks
    · simp only [if_pos hn, dispatch_scheduleNext]
      exact .inl ⟨_, _, rfl, .inr rfl⟩
    · simp only [if_neg hn]
      exact .inl ⟨_, _, rfl, .inl ⟨_, rfl, hc⟩⟩

private theorem isrHandler_fits {s : Kernel} {c : ℕ} {io : Ports} {r r0 : Registers} {o : Outcome}
    (hs : Scheduled s c) (ho : isrHandler s io r = some o) :
    Fits o (choice ⟨s, .user r0⟩ (.trap io r)) := by
  simp only [isrHandler] at ho
  simp only [choice, Input.request]
  split at ho
  next h31 =>
    obtain rfl := Option.some.inj ho
    rw [if_pos h31]
    split
    · simp only [pageFaultKill]
      cases hf : (List.range (sysExit s).numTasks).find? (isReady (sysExit s)) with
      | none => exact .inr ⟨rfl, fun _ h => by cases h⟩
      | some n => exact .inl ⟨_, _, rfl, .inr rfl⟩
    · exact .inr ⟨rfl, fun _ h => by cases h⟩
  next h31 =>
  rw [if_neg h31]
  split at ho
  next h47 =>
    rw [if_pos h47]
    have hc := (hs.irqEffect io r.intNo.toNat).current
    simp only [hc] at ho
    simp only [irqChoice, hc, Option.map_some]
    obtain rfl := Option.some.inj ho
    split
    · simp only [schedule, dispatch_scheduleNext]
      exact .inl ⟨_, _, rfl, .inr rfl⟩
    · exact .inl ⟨_, _, rfl, .inl ⟨_, rfl, hc⟩⟩
  next h47 =>
  rw [if_neg h47]
  split at ho
  next h80 =>
    obtain ⟨so, hso, rfl⟩ := Option.map_eq_some_iff.mp ho
    rw [if_pos h80]
    simp only [hso, Option.bind_some]
    exact finishSyscall_fits r (hs.callEffect (syscallHandler_effect hs.current hso)).current
  next h80 =>
    obtain rfl := Option.some.inj ho
    rw [if_neg h80]
    simp only [if_neg h31, hs.current, Option.map_some]
    exact .inl ⟨_, _, rfl, .inl ⟨_, rfl, hs.current⟩⟩

/-- When a step enters user mode, it is in the slot that `choice` names. -/
theorem step_choice {x y : System} {i : Input} {c : ℕ} {r : Registers}
    (hs : Scheduled x.kernel c) (hi : ∀ virt b, i ≠ .store virt b) (h : step x i = some y)
    (hp : y.phase = .user r) :
    ∃ k n, choice x i = some (k, n) ∧ y.kernel.currentTask = some n ∧
      (Runnable k n → Runnable y.kernel n) := by
  obtain ⟨s, p⟩ := x
  have hfits : ∃ o : Outcome, y = o.system ∧ Fits o (choice ⟨s, p⟩ i) := by
    cases p with
    | user r0 =>
      cases i with
      | irq io n => cases h
      | store virt b => exact absurd rfl (hi virt b)
      | trap io r =>
        obtain ⟨o, ho, rfl⟩ := Option.map_eq_some_iff.mp h
        exact ⟨o, rfl, isrHandler_fits hs ho⟩
    | asleep r start target =>
      cases i with
      | trap io r => cases h
      | store virt b => cases h
      | irq io n =>
        simp only [step] at h
        simp only [choice]
        split at h
        next hn =>
          obtain rfl := Option.some.inj h
          rw [if_pos hn]
          exact ⟨_, rfl, finishSyscall_fits r ((hs.irqEffect io n).sleepLoop start target).current⟩
        · cases h
    | stopped => cases i <;> cases h
  obtain ⟨o, rfl, ⟨k, n, hk, hf⟩ | ⟨-, hn⟩⟩ := hfits
  · exact ⟨k, n, hk, hf.current, hf.runnable⟩
  · exact absurd hp (hn r)

theorem mem_scanOrder {s : Kernel} {c j : ℕ} (hc : c < s.numTasks) :
    j ∈ scanOrder s c ↔ j < s.numTasks ∧ j ≠ c := by
  simp only [scanOrder, List.mem_map, List.mem_range]
  constructor
  · rintro ⟨k, hk, rfl⟩
    refine ⟨Nat.mod_lt _ (by omega), ?_⟩
    rcases Nat.lt_or_ge (c + (k + 1)) s.numTasks with h | h
    · rw [Nat.mod_eq_of_lt h]
      omega
    · rw [Nat.mod_eq_sub_mod h, Nat.mod_eq_of_lt (by omega)]
      omega
  · rintro ⟨hj, hne⟩
    rcases Nat.lt_or_gt_of_ne hne with h | h
    · refine ⟨s.numTasks - c + j - 1, by omega, ?_⟩
      rw [show c + (s.numTasks - c + j - 1 + 1) = s.numTasks + j by omega, Nat.add_mod_left,
        Nat.mod_eq_of_lt hj]
    · refine ⟨j - c - 1, by omega, ?_⟩
      rw [show c + (j - c - 1 + 1) = j by omega, Nat.mod_eq_of_lt hj]

/-- The scheduler finds a ready slot when there is another one, and else stays. -/
theorem nextTask_spec {s : Kernel} {c : ℕ} (hc : c < s.numTasks) (hn : 1 < s.numTasks) :
    (nextTask s c < s.numTasks ∧ nextTask s c ≠ c ∧ (s.tasks (nextTask s c)).state = .ready) ∨
      (nextTask s c = c ∧ ∀ j < s.numTasks, j ≠ c → (s.tasks j).state ≠ .ready) := by
  simp only [nextTask, scheduleNext, if_neg (Nat.not_le.mpr hn)]
  cases hf : (scanOrder s c).find? (isReady s) with
  | some n =>
    obtain ⟨hlt, hne⟩ := (mem_scanOrder hc).mp (List.mem_of_find?_eq_some hf)
    have hr := List.find?_some hf
    simp only [isReady, beq_iff_eq] at hr
    exact .inl ⟨hlt, hne, hr⟩
  | none =>
    refine .inr ⟨rfl, fun j hj hne hr => ?_⟩
    have hno := List.find?_eq_none.mp hf j ((mem_scanOrder hc).mpr ⟨hj, hne⟩)
    simp [isReady, hr] at hno

/-- The call leaves the task in slot `c`, which makes it, blocked or exited. -/
def Stops (s : Kernel) (c : ℕ) : Syscall → Prop
  | .exit => True
  | .kill pid => s.findLive pid = some c
  | .wait pid => (s.findPid pid).any s.live = true
  | .waitAny => ∀ j < s.numTasks, j ≠ c → (s.tasks j).state ≠ .exited
  | .futex uaddr op val =>
    op = 0 ∧ readUser32 s.machine uaddr = some val ∧ s.futexWaiters.length < maxFutexWaiters
  | _ => False

/-- Another task is ready to take over, or waits for the one that exits. -/
def Relieved (s : Kernel) (c : ℕ) (call : Syscall) : Prop :=
  ∃ j < s.numTasks, j ≠ c ∧
    ((s.tasks j).state = .ready ∨ call = .exit ∧ (s.tasks c).waitIdx = some j)

/-- What is asked of a trap: a call that stops its caller is made only when another task can take
over. -/
def Resumable (x : System) (i : Input) : Prop :=
  ∀ c io call, x.kernel.currentTask = some c → i.request = .call io call →
    Stops x.kernel c call → Relieved x.kernel c call

theorem saveFrame_state (s : Kernel) (c j : ℕ) (r : Registers) :
    ((saveFrame s c r).tasks j).state = (s.tasks j).state := by
  simp only [saveFrame, Kernel.setTask_apply]
  split
  next hj => rw [hj]
  · rfl

theorem preempt_state (s : Kernel) (c j : ℕ) (r : Registers) :
    ((preempt s c r).tasks j).state = if j = c then .ready else (s.tasks j).state := by
  simp only [preempt, Kernel.setState_apply, saveFrame_state]

theorem yieldCaller_state (s : Kernel) (c j : ℕ) (r : Registers) :
    ((yieldCaller s c r).tasks j).state =
      if j = c ∧ Runnable s c then .ready else (s.tasks j).state := by
  have he : yieldCaller s c r = if Runnable s c then preempt s c r else saveFrame s c r := by
    simp only [yieldCaller, preempt, Runnable, saveFrame_state]
  rw [he]
  by_cases hr : Runnable s c
  · rw [if_pos hr, preempt_state]
    simp only [hr, and_true]
  · rw [if_neg hr, saveFrame_state, if_neg (fun h => hr h.2)]

theorem preempt_runnable {s : Kernel} {c : ℕ} (hc : c < s.numTasks) (hn : 1 < s.numTasks)
    (r : Registers) : Runnable (preempt s c r) (nextTask (preempt s c r) c) := by
  have hlt : c < (preempt s c r).numTasks := hc
  rcases nextTask_spec hlt hn with ⟨-, -, hr⟩ | ⟨he, -⟩
  · simp [Runnable, hr]
  · rw [he]
    simp [Runnable, preempt_state]

theorem yieldCaller_runnable_iff {s : Kernel} {c : ℕ} (hc : c < s.numTasks)
    (hn : 1 < s.numTasks) (r : Registers) :
    Runnable (yieldCaller s c r) (nextTask (yieldCaller s c r) c) ↔
      Runnable s c ∨ ∃ j < s.numTasks, j ≠ c ∧ (s.tasks j).state = .ready := by
  have hnum := (yieldCaller_sameTable s c r).numTasks
  rcases nextTask_spec (s := yieldCaller s c r) (hnum ▸ hc) (hnum ▸ hn) with
    ⟨hlt, hne, hr⟩ | ⟨he, hno⟩
  · have hr' := hr
    rw [yieldCaller_state, if_neg (fun h => hne h.1)] at hr'
    simp only [Runnable, hr, ne_eq, reduceCtorEq, not_false_eq_true, and_self, true_iff]
    exact .inr ⟨_, hnum ▸ hlt, hne, hr'⟩
  · have hnone : ¬ ∃ j < s.numTasks, j ≠ c ∧ (s.tasks j).state = .ready := by
      rintro ⟨j, hj, hjc, hr⟩
      refine hno j (hnum ▸ hj) hjc ?_
      rw [yieldCaller_state, if_neg (fun h => hjc h.1), hr]
    rw [he]
    by_cases hr : Runnable s c
    · have hst : ((yieldCaller s c r).tasks c).state = .ready := by
        rw [yieldCaller_state, if_pos ⟨rfl, hr⟩]
      exact ⟨fun _ => .inl hr, fun _ => by simp [Runnable, hst]⟩
    · have hst : ((yieldCaller s c r).tasks c).state = (s.tasks c).state := by
        rw [yieldCaller_state, if_neg (fun h => hr h.2)]
      simp only [hr, hnone, or_self, iff_false]
      rw [Runnable, hst]
      exact hr

theorem callChoice_runnable_iff {o : SysOutcome} {c n : ℕ} {k : Kernel} {r : Registers}
    (hs : Scheduled o.kernel c) (hch : callChoice r o = some (k, n)) :
    Runnable k n ↔
      Runnable o.kernel c ∨ ∃ j < o.kernel.numTasks, j ≠ c ∧ (o.kernel.tasks j).state = .ready := by
  cases o with
  | asleep s start target => cases hch
  | stopped s => cases hch
  | done rax s =>
    have hc : s.currentTask = some c := hs.current
    have hlt : c < s.numTasks := hs.lt
    simp only [callChoice, hc, Option.map_some, Option.some.injEq] at hch
    split at hch
    next hn =>
      obtain ⟨rfl, rfl⟩ := Prod.mk.inj hch
      exact yieldCaller_runnable_iff hlt hn _
    next hn =>
      obtain ⟨rfl, rfl⟩ := Prod.mk.inj hch
      refine ⟨.inl, fun h => h.elim id ?_⟩
      rintro ⟨j, hj, hne, -⟩
      change j < s.numTasks at hj
      omega

/-- The calls that can leave their caller blocked or exited. -/
def Syscall.mayStop : Syscall → Bool
  | .exit | .kill _ | .wait _ | .waitAny => true
  | .futex _ op _ => op == 0
  | _ => false

/-- A runnable task stays so in all other calls. -/
theorem CallEffect.runnable {s s' : Kernel} {c rax : ℕ} {call : Syscall}
    (he : CallEffect s c call (.done rax s')) (hs : Scheduled s c) (hrun : Runnable s c)
    (hcall : call.mayStop = false) : Runnable s' c := by
  have hsame {st : TaskState} (hst : st = (s.tasks c).state ∨ st = .ready ∨ st = .running) :
      st ≠ .blocked ∧ st ≠ .exited := by
    rcases hst with rfl | rfl | rfl
    · exact hrun
    · decide
    · decide
  generalize ho : SysOutcome.done rax s' = o at he
  cases he with
  | quiet hq =>
    obtain ⟨-, rfl⟩ := SysOutcome.done.inj ho
    obtain ⟨m, b, rfl, -⟩ := hq
    exact hrun
  | exit => cases hcall
  | @send p t d l i rax bytes hi hr hb =>
    obtain ⟨-, rfl⟩ := SysOutcome.done.inj ho
    refine hsame ?_
    rw [Kernel.setTask_apply]
    split
    next hci =>
      simp only [Task.enqueue, ← hci]
      split
      · exact .inr (.inl rfl)
      · exact .inl rfl
    · exact .inl rfl
  | recv =>
    obtain ⟨-, rfl⟩ := SysOutcome.done.inj ho
    exact hsame (.inl (by simp))
  | wait => cases hcall
  | waitAny => cases hcall
  | irqRegister =>
    obtain ⟨-, rfl⟩ := SysOutcome.done.inj ho
    exact hrun
  | kill => cases hcall
  | clone h =>
    obtain ⟨-, rfl⟩ := SysOutcome.done.inj ho
    obtain ⟨m, kstack, pml4, la, cp, rfl, -⟩ := h
    exact hsame (.inl (by simp [addTask, hs.lt.ne]))
  | spawnAt h =>
    obtain ⟨-, rfl⟩ := SysOutcome.done.inj ho
    obtain ⟨m, kstack, pml4, la, cp, rfl, -⟩ := h
    exact hsame (.inl (by simp [addTask, hs.lt.ne]))
  | futexWait => cases hcall
  | futexWake h =>
    obtain ⟨-, rfl⟩ := SysOutcome.done.inj ho
    obtain ⟨st, l, rfl, -, -, hst⟩ := h
    exact hsame ((hst c).elim (fun h => .inr (.inl h.2.2)) fun h => .inl h.2)
  | nanosleep =>
    rw [sysNanosleep, sleepLoop] at ho
    split at ho
    · cases ho
    · obtain ⟨-, rfl⟩ := SysOutcome.done.inj ho
      rw [Kernel.setCurrentState_eq _ hs.current]
      exact hsame (.inr (.inr (by simp)))
  | shutdown => cases ho

section Calls

variable {s s' : Kernel} {c rax : ℕ} {io : Ports} {call : Syscall} (hs : Scheduled s c)
  (h : syscallHandler s io call = some (.done rax s'))
include hs h

/-- A runnable task stays so, except in the calls that stop it. -/
theorem call_runnable_iff (hrun : Runnable s c) : Runnable s' c ↔ ¬ Stops s c call := by
  have hc := hs.current
  have hblocked (s : Kernel) : ¬ Runnable (s.setState c .blocked) c := by simp [Runnable]
  cases hmay : call.mayStop with
  | false =>
    refine iff_of_true ((syscallHandler_effect hc h).runnable hs hrun hmay) fun hstop => ?_
    cases call <;> simp [Syscall.mayStop, Stops] at hmay hstop
    exact hmay hstop.1
  | true =>
    cases call with
    | exit =>
      obtain ⟨-, rfl⟩ := SysOutcome.done.inj (Option.some.inj h)
      simp [Stops, Runnable, sysExit_eq hc, exitTasks]
    | kill pid =>
      simp only [syscallHandler, Option.some.injEq, returnInt, SysOutcome.done.injEq, sysKill] at h
      obtain ⟨-, rfl⟩ := h
      cases hf : s.findLive pid with
      | none => simpa [Stops, hf] using hrun
      | some i =>
        by_cases hic : i = c
        · simp [Stops, hf, hic, Runnable]
        · simpa [Stops, hf, hic, Ne.symm hic, Runnable] using hrun
    | wait pid =>
      simp only [syscallHandler, Option.some.injEq, returnInt, SysOutcome.done.injEq, sysWait] at h
      obtain ⟨-, rfl⟩ := h
      cases hf : s.findPid pid with
      | none => simpa [Stops, hf] using hrun
      | some i =>
        by_cases hl : (s.tasks i).state = .exited
        · simpa [Stops, hf, hl, Kernel.live] using hrun
        · simp only [if_neg hl, Kernel.setCurrentState_eq (s := s.setTask i _) .blocked hc]
          simp [Stops, hf, hl, Kernel.live, hblocked]
    | waitAny =>
      simp only [syscallHandler, Option.some.injEq, returnInt, SysOutcome.done.injEq,
        sysWaitAny] at h
      obtain ⟨-, rfl⟩ := h
      split
      next i hf =>
        have hi := List.find?_some hf
        have hm := List.mem_range.mp (List.mem_of_find?_eq_some hf)
        simp only [hc, Kernel.live, Bool.and_eq_true, bne_iff_ne, ne_eq, Option.some.injEq] at hi
        refine iff_of_true hrun fun hstop => hstop i hm hi.2 ?_
        simpa using hi.1
      next hf =>
        rw [List.find?_eq_none] at hf
        refine iff_of_false ?_ (not_not.mpr fun j hj hjc hx => ?_)
        · simp [Kernel.setCurrentState, hc, Runnable]
        · refine hf j (List.mem_range.mpr hj) ?_
          simp [hc, Kernel.live, hx, hjc]
    | futex uaddr op val =>
      obtain ⟨res, hres, he⟩ := Option.map_eq_some_iff.mp h
      obtain ⟨-, rfl⟩ := SysOutcome.done.inj he
      have hop : op = 0 := by simpa [Syscall.mayStop] using hmay
      simp only [sysFutex, hc, if_pos hop] at hres
      obtain ⟨word, hw, rfl⟩ := Option.map_eq_some_iff.mp hres
      simp only [Stops, hop, hw, true_and, Option.some.injEq]
      split
      next hne => exact iff_of_true hrun fun hstop => hne hstop.1
      next heq =>
        split
        next hfull => exact iff_of_true hrun fun hstop => absurd hstop.2 (Nat.not_lt.mpr hfull)
        next hroom =>
          exact iff_of_false (hblocked _) (not_not.mpr ⟨not_not.mp heq, Nat.not_le.mp hroom⟩)
    | _ => cases hmay

/-- Who is ready after a call that stops its caller. -/
theorem call_relieved_iff (hstop : Stops s c call) :
    (∃ j < s'.numTasks, j ≠ c ∧ (s'.tasks j).state = .ready) ↔ Relieved s c call := by
  have hc := hs.current
  unfold Relieved
  have hcongr {q : ℕ → Prop} (hnum : s'.numTasks = s.numTasks)
      (hst : ∀ j ≠ c, (s'.tasks j).state = .ready ↔ (s.tasks j).state = .ready ∨ q j) :
      (∃ j < s'.numTasks, j ≠ c ∧ (s'.tasks j).state = .ready) ↔
        ∃ j < s.numTasks, j ≠ c ∧ ((s.tasks j).state = .ready ∨ q j) := by
    rw [hnum]
    exact exists_congr fun j => and_congr_right fun _ => and_congr_right fun hj => hst j hj
  have heffect := syscallHandler_effect hc h
  cases call with
  | exit =>
    obtain ⟨-, rfl⟩ := SysOutcome.done.inj (Option.some.inj h)
    refine hcongr (by rw [sysExit_eq hc]) fun j hj => ?_
    rw [sysExit_eq hc]
    by_cases hw : (s.tasks c).waitIdx = some j <;> simp [exitTasks, hj, hw]
  | kill pid =>
    have hf : s.findLive pid = some c := hstop
    simp only [syscallHandler, Option.some.injEq, returnInt, SysOutcome.done.injEq, sysKill,
      hf] at h
    obtain ⟨-, rfl⟩ := h
    exact hcongr rfl fun j hj => by simp [hj]
  | wait pid =>
    cases heffect with
    | quiet hq =>
      obtain ⟨m, b, rfl, -⟩ := hq
      exact hcongr rfl fun j hj => by simp
    | @wait pid i rax hi hl =>
      refine hcongr rfl fun j hj => ?_
      by_cases hji : j = i
      · subst hji
        simp [hj]
      · simp [hj, hji]
  | waitAny =>
    cases heffect with
    | quiet hq =>
      obtain ⟨m, b, rfl, -⟩ := hq
      exact hcongr rfl fun j hj => by simp
    | waitAny hl =>
      refine hcongr rfl fun j hj => ?_
      simp only [Kernel.setState_apply, if_neg hj, waitAnyTasks]
      split <;> simp
  | futex uaddr op val =>
    obtain ⟨rfl, -⟩ := hstop
    cases heffect with
    | quiet hq =>
      obtain ⟨m, b, rfl, -⟩ := hq
      exact hcongr rfl fun j hj => by simp
    | futexWait => exact hcongr rfl fun j hj => by simp [hj]
  | _ => exact hstop.elim

end Calls

/-- A call of a runnable task. -/
private theorem call_choice_iff {s k : Kernel} {c n : ℕ} {io : Ports} {call : Syscall}
    {r r0 : Registers} {o : SysOutcome} {i : Input} (hs : Scheduled s c) (hrun : Runnable s c)
    (hq : i.request = .call io call) (ho : syscallHandler s io call = some o)
    (hch : callChoice r o = some (k, n)) : Runnable k n ↔ Resumable ⟨s, .user r0⟩ i := by
  rw [callChoice_runnable_iff (hs.callEffect (syscallHandler_effect hs.current ho)) hch]
  cases o with
  | asleep s' start target => cases hch
  | stopped s' => cases hch
  | done rax s' =>
    change (Runnable s' c ∨ ∃ j < s'.numTasks, j ≠ c ∧ (s'.tasks j).state = .ready) ↔ _
    rw [call_runnable_iff hs ho hrun]
    constructor
    · intro h d io' call' hd hq' hstop
      obtain rfl := Option.some.inj (hs.current.symm.trans hd)
      obtain ⟨rfl, rfl⟩ := Request.call.inj (hq.symm.trans hq')
      exact (call_relieved_iff hs ho hstop).mp (h.resolve_left (not_not.mpr hstop))
    · intro h
      by_cases hstop : Stops s c call
      · exact .inr ((call_relieved_iff hs ho hstop).mpr (h c io call hs.current hq hstop))
      · exact .inl hstop

/-- A trap other than a call asks for nothing. -/
theorem resumable_of_ne {x : System} {i : Input} (h : ∀ io call, i.request ≠ .call io call) :
    Resumable x i := fun _ io call _ hq => absurd hq (h io call)

theorem irqEffect_runnable {s : Kernel} {c : ℕ} (h : Runnable s c) (io : Ports) (n : ℕ) :
    Runnable (irqEffect s io n) c := by
  unfold irqEffect keyboardIrq
  split
  · exact h
  · split
    · split
      · exact h
      next j _ =>
        split
        · unfold Runnable
          rw [Kernel.setTask_apply]
          split
          next hcj =>
            subst hcj
            simpa [Task.enqueue, h.1] using h.2
          · exact h
        · exact h
    · exact h

private theorem trap_runnable_iff {s k : Kernel} {c n : ℕ} {io : Ports} {r r0 : Registers}
    (hs : Scheduled s c) (hrun : Runnable s c)
    (hch : choice ⟨s, .user r0⟩ (.trap io r) = some (k, n)) :
    Runnable k n ↔ Resumable ⟨s, .user r0⟩ (.trap io r) := by
  simp only [choice] at hch
  cases hq : (Input.trap io r).request with
  | none =>
    refine iff_of_true ?_ (resumable_of_ne fun _ _ => by simp [hq])
    simp only [hq] at hch
    split at hch
    · cases hch
    · rw [hs.current] at hch
      obtain ⟨rfl, rfl⟩ := Prod.mk.inj (Option.some.inj hch)
      exact hrun
  | store virt b =>
    simp only [hq] at hch
    cases hch
  | fault =>
    refine iff_of_true ?_ (resumable_of_ne fun _ _ => by simp [hq])
    simp only [hq] at hch
    obtain ⟨m, hm, he⟩ := Option.map_eq_some_iff.mp hch
    obtain ⟨rfl, rfl⟩ := Prod.mk.inj he
    have hr := List.find?_some hm
    simp only [isReady, beq_iff_eq] at hr
    simp [Runnable, hr]
  | irq io' n' =>
    refine iff_of_true ?_ (resumable_of_ne fun _ _ => by simp [hq])
    have hs' := hs.irqEffect io' n'
    simp only [hq, irqChoice, hs'.current, Option.map_some, Option.some.injEq] at hch
    split at hch
    next ht =>
      obtain ⟨rfl, rfl⟩ := Prod.mk.inj hch
      exact preempt_runnable hs'.lt ht.2.1 r
    next ht =>
      obtain ⟨rfl, rfl⟩ := Prod.mk.inj hch
      exact irqEffect_runnable hrun io' n'
  | call io' call =>
    simp only [hq] at hch
    obtain ⟨o, ho, hch⟩ := Option.bind_eq_some_iff.mp hch
    exact call_choice_iff hs hrun hq ho hch

/-- The task that runs in user mode is runnable. -/
def RunsRunnable (x : System) : Prop :=
  ∀ c r, x.kernel.currentTask = some c → x.phase = .user r → Runnable x.kernel c

private theorem step_runnable_iff {x y : System} {i : Input} {c : ℕ} {r : Registers}
    (hx : Reachable x) (hrun : RunsRunnable x) (hc : x.kernel.currentTask = some c)
    (hi : ∀ virt b, i ≠ .store virt b) (h : step x i = some y) (hp : y.phase = .user r) :
    ∃ k n, choice x i = some (k, n) ∧ y.kernel.currentTask = some n ∧
      (Runnable k n → Runnable y.kernel n) ∧ (Runnable k n ↔ Resumable x i) := by
  obtain ⟨hs, -⟩ := hx.table hc
  obtain ⟨k, n, hch, hn, hkeep⟩ := step_choice hs hi h hp
  refine ⟨k, n, hch, hn, hkeep, ?_⟩
  obtain ⟨s, p⟩ := x
  cases p with
  | user r0 =>
    cases i with
    | irq io n => cases h
    | store virt b => exact absurd rfl (hi virt b)
    | trap io r => exact trap_runnable_iff hs (hrun c r0 hc rfl) hch
  | asleep r start target =>
    cases i with
    | trap io r => cases h
    | store virt b => cases h
    | irq io n =>
      -- The end of a sleep marks the caller as running.
      refine iff_of_true ?_ (resumable_of_ne fun _ _ => nofun)
      simp only [choice] at hch
      split at hch
      next hn =>
        have hs' := (hs.irqEffect io n).sleepLoop start target
        rw [callChoice_runnable_iff hs' hch]
        left
        have hcur := (hs.irqEffect io n).current
        unfold sleepLoop at hch ⊢
        split
        next hasleep =>
          rw [if_pos hasleep] at hch
          cases hch
        · rw [Kernel.setCurrentState_eq _ hcur]
          simp [SysOutcome.kernel, Runnable]
      · cases hch
  | stopped => cases i <;> cases h

/-- As long as every trap is resumable, the task in user mode is runnable. -/
theorem runsRunnable {cfg : BootConfig} {x0 x : System} (hk : kmain cfg = some x0)
    (hx : Reach step Resumable x0 x) : RunsRunnable x := by
  induction hx with
  | refl =>
    obtain ⟨res, -, rfl⟩ := Option.map_eq_some_iff.mp hk
    intro c r hc hp
    simp only [schedulerStart] at hc hp ⊢
    by_cases h0 : res.2.numTasks = 0
    · simp only [if_pos h0] at hp
      cases hp
    · simp only [if_neg h0] at hc ⊢
      obtain rfl := Option.some.inj hc
      simp [Runnable]
  | @tail y z i hy hok hstep ih =>
    intro n r hn hp
    have hreach : Reachable y := ⟨cfg, x0, hk, hy.mono fun _ _ _ => trivial⟩
    by_cases hstore : ∃ virt b, i = .store virt b
    · obtain ⟨virt, b, rfl⟩ := hstore
      obtain ⟨s, p⟩ := y
      cases p with
      | user r0 =>
        obtain ⟨m, hm, rfl⟩ := Option.map_eq_some_iff.mp hstep
        exact ih n r0 hn rfl
      | asleep => cases hstep
      | stopped => cases hstep
    · obtain ⟨c, hc⟩ : ∃ c, y.kernel.currentTask = some c := by
        rcases hreach.haltedOrNumbered with ⟨hstopped, -⟩ | ⟨⟨c, hs⟩, -⟩
        · rw [step_stopped hstopped] at hstep
          cases hstep
        · exact ⟨c, hs.current⟩
      obtain ⟨k, m, -, hm, hkeep, hiff⟩ := step_runnable_iff hreach ih hc
        (fun virt b he => hstore ⟨virt, b, he⟩) hstep hp
      obtain rfl := Option.some.inj (hm.symm.trans hn)
      exact hkeep (hiff.mpr hok)

/-- In every run up to a trap that is not resumable, and for every trap that returns to user mode,
the task resumed was runnable when it was chosen exactly when the trap is resumable. -/
theorem resumed_runnable_iff {cfg : BootConfig} {x0 x y : System} {i : Input} {c : ℕ}
    {r : Registers} (hk : kmain cfg = some x0) (hx : Reach step Resumable x0 x)
    (hc : x.kernel.currentTask = some c) (hi : ∀ virt b, i ≠ .store virt b)
    (h : step x i = some y) (hp : y.phase = .user r) :
    ∃ k n, choice x i = some (k, n) ∧ y.kernel.currentTask = some n ∧
      (Runnable k n ↔ Resumable x i) := by
  obtain ⟨k, n, hch, hn, -, hiff⟩ := step_runnable_iff
    ⟨cfg, x0, hk, hx.mono fun _ _ _ => trivial⟩ (runsRunnable hk hx) hc hi h hp
  exact ⟨k, n, hch, hn, hiff⟩

/-- A thread waits for the task that created it, which is ready. -/
theorem resumed_runnable_iff_sample : ∃ x0 x y r, kmain (sampleConfig sampleMap) = some x0 ∧
    Reach step Resumable x0 x ∧ Stops x.kernel 1 (.wait 1) ∧
    step x (.trap quietPorts (.call 7 1 0 0 0)) = some y ∧ y.phase = .user r ∧
    ∃ k n, choice x (.trap quietPorts (.call 7 1 0 0 0)) = some (k, n) ∧
      y.kernel.currentTask = some n ∧ Runnable k n := by
  obtain ⟨x, h, f, y, r, use, fl, hk, -, hstep, hy, hty, -⟩ := sample_cloned
  have hty := Option.some.inj hty
  obtain ⟨z, r1, hstep', hz, ht⟩ := step_table (x := y) (r := .call 7 1 0 0 0) quietPorts hy rfl
    (by rw [← hty]; rfl) nofun
  have hc : y.kernel.currentTask = some 1 := congrArg TaskTable.current hty.symm
  have hn : y.kernel.numTasks = 2 := congrArg TaskTable.num hty.symm
  have hfind : y.kernel.findPid 1 = some 0 := by
    rw [← table_findPid, ← hty]
    rfl
  have h0 : (y.kernel.tasks 0).state = .ready := congrFun (congrArg TaskTable.state hty.symm) 0
  have hstops : Stops y.kernel 1 (.wait 1) := by simp [Stops, hfind, Kernel.live, h0]
  have hfirst : Resumable x (.trap quietPorts (.call 21 0 0 0 0)) := by
    rintro c io call - hq hstop
    obtain ⟨-, rfl⟩ := Request.call.inj hq
    exact hstop.elim
  have hok : Resumable y (.trap quietPorts (.call 7 1 0 0 0)) := by
    rintro c io call hc' hq -
    obtain rfl := Option.some.inj (hc.symm.trans hc')
    exact ⟨0, by rw [hn]; decide, by decide, .inl h0⟩
  have hreach : Reach step Resumable x y := .tail .refl hfirst hstep
  obtain ⟨k, n, hch, hnext, hiff⟩ := resumed_runnable_iff hk hreach hc
    (fun _ _ h => by cases h) hstep' hz
  exact ⟨x, y, z, r1, hk, hreach, hstops, hstep', hz, k, n, hch, hnext, hiff.mpr hok⟩

/-- The only task exits and is resumed all the same. -/
theorem exited_task_resumed : ∃ x i y r k n, Reachable x ∧ step x i = some y ∧
    y.phase = .user r ∧ choice x i = some (k, n) ∧ y.kernel.currentTask = some n ∧
    (k.tasks n).state = .exited := by
  obtain ⟨x, r, use, fl, hk, hp, ht, -⟩ := sample_started
  have hc : x.kernel.currentTask = some 0 := congrArg TaskTable.current ht
  have hn : x.kernel.numTasks = 1 := congrArg TaskTable.num ht
  have hexit : (sysExit x.kernel).currentTask = some 0 ∧ (sysExit x.kernel).numTasks = 1 := by
    rw [sysExit_eq hc]
    exact ⟨hc, hn⟩
  have hcall : syscallHandler x.kernel quietPorts (Registers.call 0 0 0 0 0).syscall =
      some (.done 0 (sysExit x.kernel)) := rfl
  have hstep := step_syscall hp rfl hcall
  rw [afterSyscall, if_neg (by omega)] at hstep
  refine ⟨x, _, _, _, sysExit x.kernel, 0, ⟨_, x, hk, .refl⟩, hstep, rfl, ?_, hexit.1,
    sysExit_exited hexit.1⟩
  have hreq : (Input.trap quietPorts (.call 0 0 0 0 0)).request = .call quietPorts .exit := rfl
  simp only [choice, hp, hreq]
  rw [show syscallHandler x.kernel quietPorts .exit = some (.done 0 (sysExit x.kernel)) from rfl]
  simp only [Option.bind_some, callChoice, hexit.1, Option.map_some]
  rw [if_neg (by omega)]

end Mukrn
