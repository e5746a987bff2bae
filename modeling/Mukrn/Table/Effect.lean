import Mathlib.Data.List.Perm.Basic
import Mukrn.Table.Creation

/-! What each system call does to the kernel's variables. Memory is abstracted to the
active root; later invariants of the task table only use the cases listed here. -/
namespace Mukrn

namespace Kernel

variable (s : Kernel) (i j : ℕ) (t : Task) (st : TaskState)

@[simp] theorem setTask_machine : (s.setTask i t).machine = s.machine := rfl
@[simp] theorem setTask_currentTask : (s.setTask i t).currentTask = s.currentTask := rfl
@[simp] theorem setTask_numTasks : (s.setTask i t).numTasks = s.numTasks := rfl
@[simp] theorem setTask_nextPid : (s.setTask i t).nextPid = s.nextPid := rfl
@[simp] theorem setTask_futexWaiters : (s.setTask i t).futexWaiters = s.futexWaiters := rfl

@[simp] theorem setTask_apply : (s.setTask i t).tasks j = if j = i then t else s.tasks j :=
  Function.update_apply ..

@[simp] theorem setState_machine : (s.setState i st).machine = s.machine := rfl
@[simp] theorem setState_currentTask : (s.setState i st).currentTask = s.currentTask := rfl
@[simp] theorem setState_numTasks : (s.setState i st).numTasks = s.numTasks := rfl
@[simp] theorem setState_nextPid : (s.setState i st).nextPid = s.nextPid := rfl
@[simp] theorem setState_futexWaiters : (s.setState i st).futexWaiters = s.futexWaiters := rfl
@[simp] theorem setState_irqHandlers : (s.setState i st).irqHandlers = s.irqHandlers := rfl
@[simp] theorem setState_ticks : (s.setState i st).ticks = s.ticks := rfl

@[simp] theorem setState_apply :
    (s.setState i st).tasks j =
      { s.tasks j with state := if j = i then st else (s.tasks j).state } := by
  rw [setState, setTask_apply]
  split
  next h => rw [h]
  next => rfl

variable {s} in
theorem setCurrentState_eq {c : ℕ} (hc : s.currentTask = some c) :
    s.setCurrentState st = s.setState c st := by
  rw [setCurrentState, hc]

variable {s i} in
theorem findLive_spec {pid : ℕ} (h : s.findLive pid = some i) :
    i < s.numTasks ∧ (s.tasks i).pid = pid ∧ (s.tasks i).state ≠ .exited := by
  have hp := List.find?_some h
  have hm := List.mem_of_find?_eq_some h
  simp only [live, Bool.and_eq_true, beq_iff_eq, bne_iff_ne] at hp
  exact ⟨List.mem_range.mp hm, hp⟩

variable {s i} in
theorem findPid_spec {pid : ℕ} (h : s.findPid pid = some i) :
    i < s.numTasks ∧ (s.tasks i).pid = pid :=
  ⟨List.mem_range.mp (List.mem_of_find?_eq_some h), by simpa using List.find?_some h⟩

end Kernel

/-- Only memory and the heap break may differ, and the active root is the same. -/
def Quiet (s s' : Kernel) : Prop :=
  ∃ h b, s' = { s with machine := h, heapBrk := b } ∧ h.pagingRoot = s.machine.pagingRoot

theorem Quiet.refl (s : Kernel) : Quiet s s := ⟨s.machine, s.heapBrk, rfl, rfl⟩

theorem Quiet.memory {s : Kernel} {h : Machine} (hr : h.pagingRoot = s.machine.pagingRoot) :
    Quiet s { s with machine := h } := ⟨h, s.heapBrk, rfl, hr⟩

/-- The first free slot was filled with a fresh pid. -/
def Spawned (s s' : Kernel) : Prop :=
  ∃ h kstack pml4 loadAddr codePages,
    s' = (addTask s h none 0 kstack pml4 loadAddr codePages).2 ∧
    h.pagingRoot = s.machine.pagingRoot ∧ s.numTasks < maxTasks ∧ kstack ≠ 0 ∧
    (pml4 ≠ 0 ∨ ∃ c, s.currentTask = some c ∧ pml4 = (s.tasks c).pml4Phys)

/-- The table after the task in slot `c` has ended itself: its recorded waiter is ready,
then `c` has lost its stack and is exited. -/
def exitTasks (s : Kernel) (c j : ℕ) : Task :=
  if j = c then { s.tasks c with stackPhys := 0, state := .exited }
  else
    { s.tasks j with
      state := if (s.tasks c).waitIdx = some j then .ready else (s.tasks j).state }

theorem wakeWaiter_eq (s : Kernel) (t : Task) :
    wakeWaiter s t =
      { s with tasks := fun j =>
          { s.tasks j with
            state := if t.waitIdx = some j then .ready else (s.tasks j).state } } := by
  cases hw : t.waitIdx with
  | none => simp [wakeWaiter, hw]
  | some w =>
    have ht : (s.setState w .ready).tasks = fun j =>
        { s.tasks j with state := if some w = some j then .ready else (s.tasks j).state } := by
      funext j
      simp only [Kernel.setState_apply, Option.some.injEq, eq_comm]
    simp only [wakeWaiter, hw, ← ht]
    rfl

theorem sysExit_eq {s : Kernel} {c : ℕ} (hc : s.currentTask = some c) :
    sysExit s =
      { s with
        tasks := exitTasks s c
        machine := freeUserMemory (freeStackPage s.machine (s.tasks c)) (s.tasks c) } := by
  simp only [sysExit, hc, wakeWaiter_eq, Kernel.setState, Kernel.setTask, Kernel.mk.injEq, and_true,
    true_and]
  funext j
  simp only [exitTasks, Function.update_apply]
  split <;> simp_all

/-- An entry naming slot `j` is on `l` more often than on `l'`. -/
def Removed (l l' : List FutexWaiter) (j : ℕ) : Prop :=
  ∃ e : FutexWaiter, e.taskIdx = j ∧ l'.count e < l.count e

/-- What a futex wake on `uaddr` does: entries for `uaddr` are removed, and exactly the
blocked tasks that such an entry names become ready. -/
def Woken (uaddr : ℕ) (s s' : Kernel) : Prop :=
  ∃ (st : ℕ → TaskState) (l : List FutexWaiter),
    s' = { s with tasks := fun j => { s.tasks j with state := st j }, futexWaiters := l } ∧
    (∀ e, l.count e ≤ s.futexWaiters.count e) ∧
    (∀ e, e.uaddr ≠ uaddr → l.count e = s.futexWaiters.count e) ∧
    ∀ j, ((s.tasks j).state = .blocked ∧ Removed s.futexWaiters l j ∧ st j = .ready) ∨
      (¬ ((s.tasks j).state = .blocked ∧ Removed s.futexWaiters l j) ∧ st j = (s.tasks j).state)

/-- A state other than blocked is kept. -/
theorem Woken.state_kept {uaddr j : ℕ} {s k : Kernel} (h : Woken uaddr s k)
    (hj : (s.tasks j).state ≠ .blocked) :
    (k.tasks j).state = (s.tasks j).state := by
  obtain ⟨st, l, rfl, -, -, hst⟩ := h
  rcases hst j with ⟨hb, -⟩ | ⟨-, hs⟩
  · exact absurd hb hj
  · exact hs

theorem Woken.refl (uaddr : ℕ) (s : Kernel) : Woken uaddr s s := by
  refine ⟨fun j => (s.tasks j).state, s.futexWaiters, rfl, fun _ => le_rfl, fun _ _ => rfl,
    fun j => .inr ⟨?_, rfl⟩⟩
  rintro ⟨-, e, -, hlt⟩
  exact lt_irrefl _ hlt

theorem Woken.trans {uaddr : ℕ} {s s' s'' : Kernel} (h : Woken uaddr s s')
    (h' : Woken uaddr s' s'') : Woken uaddr s s'' := by
  obtain ⟨st, l, rfl, hle, ho, hst⟩ := h
  obtain ⟨st', l', rfl, hle', ho', hst'⟩ := h'
  refine ⟨st', l', rfl, fun e => (hle' e).trans (hle e), fun e he => (ho' e he).trans (ho e he),
    fun j => ?_⟩
  rcases hst j with ⟨hb, ⟨e, he, hlt⟩, hr⟩ | ⟨hn, hs⟩
  · -- woken in the first part: ready, so the second part leaves it alone
    rcases hst' j with ⟨hb', -⟩ | ⟨-, hs'⟩
    · exact absurd (hr.symm.trans hb') (by decide)
    · exact .inl ⟨hb, ⟨e, he, (hle' e).trans_lt hlt⟩, hs'.trans hr⟩
  · rcases hst' j with ⟨hb', ⟨e, he, hlt⟩, hr'⟩ | ⟨hn', hs'⟩
    · exact .inl ⟨hs.symm.trans hb', ⟨e, he, hlt.trans_le (hle e)⟩, hr'⟩
    · refine .inr ⟨?_, hs'.trans hs⟩
      rintro ⟨hb, e, he, hlt⟩
      -- the entry went either in the first part or in the second
      rcases Nat.lt_or_ge (l.count e) (s.futexWaiters.count e) with h1 | h1
      · exact hn ⟨hb, e, he, h1⟩
      · exact hn' ⟨hs.trans hb, e, he, hlt.trans_le h1⟩

/-- Replacing an entry by the last one and dropping the last removes one occurrence. -/
private theorem swapRemove_perm {l : List FutexWaiter} {i : ℕ} {w : FutexWaiter}
    (hi : l[i]? = some w) :
    (w :: (l.set i (l.getD (l.length - 1) w)).dropLast).Perm l := by
  obtain ⟨hlt, hw⟩ := List.getElem?_eq_some_iff.mp hi
  have hne : l ≠ [] := List.ne_nil_of_length_pos (by omega)
  have hlast : l.getD (l.length - 1) w = l.getLast hne := by
    rw [List.getD_eq_getElem?_getD, List.getElem?_eq_getElem (by omega), Option.getD_some,
      List.getLast_eq_getElem]
  rw [hlast]
  have hl : (l.getLast hne :: l.dropLast).Perm l := by
    nth_rewrite 3 [← List.dropLast_append_getLast hne]
    exact (List.perm_append_singleton _ _).symm
  by_cases hend : i = l.length - 1
  · have hset : l.set i (l.getLast hne) = l := by
      rw [List.getLast_eq_getElem]
      simp only [← hend, List.set_getElem_self]
    rw [hset]
    have hwl : w = l.getLast hne := by
      rw [List.getLast_eq_getElem, ← hw]
      simp only [hend]
    rw [hwl]
    exact hl
  · have hid : i < l.dropLast.length := by
      rw [List.length_dropLast]
      omega
    have hdrop : (l.set i (l.getLast hne)).dropLast = l.dropLast.set i (l.getLast hne) := by
      apply List.ext_getElem
      · simp
      · intro k h1 h2
        simp [List.getElem_dropLast, List.getElem_set]
    have hwd : w = l.dropLast[i] := by
      rw [List.getElem_dropLast, hw]
    rw [hdrop]
    refine List.Perm.trans ?_ hl
    refine ((List.set_perm_cons_eraseIdx hid _).cons w).trans ?_
    refine (List.Perm.swap _ _ _).trans (List.Perm.cons _ ?_)
    rw [hwd]
    exact List.getElem_cons_eraseIdx_perm hid

/-- Removing the entry at `i` and waking its task, as one turn of the loop does. -/
private theorem woken_turn {uaddr i : ℕ} {s : Kernel} {w : FutexWaiter}
    (hi : s.futexWaiters[i]? = some w) (hu : w.uaddr = uaddr) :
    Woken uaddr s
      { (if (s.tasks w.taskIdx).state = .blocked then s.setState w.taskIdx .ready else s) with
        futexWaiters := (s.futexWaiters.set i
          (s.futexWaiters.getD (s.futexWaiters.length - 1) w)).dropLast } := by
  set l := (s.futexWaiters.set i (s.futexWaiters.getD (s.futexWaiters.length - 1) w)).dropLast
  have hcount (e : FutexWaiter) : s.futexWaiters.count e = l.count e + if w = e then 1 else 0 := by
    rw [← (swapRemove_perm hi).count_eq e, List.count_cons]
    simp only [beq_iff_eq]
    rfl
  have hrem (j : ℕ) : Removed s.futexWaiters l j ↔ j = w.taskIdx := by
    constructor
    · rintro ⟨e, rfl, hlt⟩
      rw [hcount e] at hlt
      by_cases he : w = e
      · rw [he]
      · rw [if_neg he] at hlt
        omega
    · rintro rfl
      refine ⟨w, rfl, ?_⟩
      rw [hcount w, if_pos rfl]
      exact Nat.lt_succ_self _
  have hle (e : FutexWaiter) : l.count e ≤ s.futexWaiters.count e := by
    rw [hcount e]
    exact Nat.le_add_right _ _
  have hother (e : FutexWaiter) (he : e.uaddr ≠ uaddr) : l.count e = s.futexWaiters.count e := by
    rw [hcount e, if_neg (fun h : w = e => he (h ▸ hu)), Nat.add_zero]
  by_cases hb : (s.tasks w.taskIdx).state = .blocked
  · refine ⟨fun j => ((s.setState w.taskIdx .ready).tasks j).state, l, ?_, hle, hother,
      fun j => ?_⟩
    · rw [if_pos hb]
      simp only [Kernel.setState_currentTask, Kernel.setState_machine,
        Kernel.setState_numTasks, Kernel.setState_nextPid, Kernel.setState_irqHandlers,
        Kernel.setState_ticks, Kernel.mk.injEq, true_and, and_true]
      refine ⟨funext fun j => ?_, rfl⟩
      rw [Kernel.setState_apply]
    · simp only [Kernel.setState_apply, hrem]
      split
      next hj => exact .inl ⟨hj ▸ hb, hj, rfl⟩
      next hj => exact .inr ⟨fun h => hj h.2, rfl⟩
  · rw [if_neg hb]
    refine ⟨fun j => (s.tasks j).state, l, rfl, hle, hother, fun j => .inr ⟨?_, rfl⟩⟩
    rintro ⟨hj, hr⟩
    rw [(hrem j).mp hr] at hj
    exact hb hj

theorem futexWakeLoop_woken (uaddr : ℕ) (val : ℤ) (fuel i : ℕ) (woken : ℤ) (s : Kernel) :
    Woken uaddr s (futexWakeLoop uaddr val fuel i woken s).2 := by
  induction fuel generalizing i woken s with
  | zero => exact .refl uaddr s
  | succ fuel ih =>
    unfold futexWakeLoop
    split
    · split
      · exact .refl uaddr s
      next w hi =>
        split
        next hu => exact (woken_turn hi hu).trans (ih _ _ _)
        next => exact ih _ _ _
    · exact .refl uaddr s

/-- The table in which a blocking `wait_any` of slot `c` is recorded. -/
def waitAnyTasks (s : Kernel) (c j : ℕ) : Task :=
  if j < s.numTasks ∧ s.live j ∧ j ≠ c then { s.tasks j with waitIdx := some c } else s.tasks j

/-- The cases of a system call made by slot `c`. -/
inductive CallEffect (s : Kernel) (c : ℕ) : Syscall → SysOutcome → Prop
  | quiet {call : Syscall} {rax : ℕ} {s' : Kernel} (h : Quiet s s') :
      CallEffect s c call (.done rax s')
  | exit : CallEffect s c .exit (.done 0 (sysExit s))
  | send {targetPid type data len i rax : ℕ} {bytes : List UInt8}
      (hi : s.findLive targetPid = some i) (hr : (s.tasks i).ipcCount < ipcQueueSize)
      (hb : readUserBytes s.machine data (min len ipcMaxData) = some bytes) :
      CallEffect s c (.send targetPid type data len)
        (.done rax (s.setTask i ((s.tasks i).enqueue s.currentPid type (min len ipcMaxData)
          fun k => bytes.getD k 0)))
  | recv {msg rax : ℕ} {h : Machine} (hq : (s.tasks c).ipcCount ≠ 0)
      (hw : writeUserMsg s.machine msg ((s.tasks c).ipcQueue (s.tasks c).ipcTail) = some h) :
      CallEffect s c (.recv msg)
        (.done rax ({ s with machine := h }.setTask c
          { s.tasks c with
            ipcTail := ((s.tasks c).ipcTail + 1) % ipcQueueSize
            ipcCount := (s.tasks c).ipcCount - 1 }))
  | wait {pid i rax : ℕ} (hi : s.findPid pid = some i) (hl : (s.tasks i).state ≠ .exited) :
      CallEffect s c (.wait pid)
        (.done rax ((s.setTask i { s.tasks i with waitIdx := some c }).setState c .blocked))
  | waitAny {rax : ℕ} (hl : ∀ i < s.numTasks, i ≠ c → (s.tasks i).state ≠ .exited) :
      CallEffect s c .waitAny (.done rax ({ s with tasks := waitAnyTasks s c }.setState c .blocked))
  | irqRegister {irq rax : ℕ} (hi : irq < 16) :
      CallEffect s c (.irqRegister irq)
        (.done rax { s with irqHandlers := Function.update s.irqHandlers irq (some c) })
  | kill {pid i rax : ℕ} {h : Machine} (hi : s.findLive pid = some i)
      (hr : h.pagingRoot = s.machine.pagingRoot) :
      CallEffect s c (.kill pid) (.done rax { s.setState i .exited with machine := h })
  | clone {flags userStack entry arg rax : ℕ} {s' : Kernel} (h : Spawned s s') :
      CallEffect s c (.clone flags userStack entry arg) (.done rax s')
  | spawnAt {addr size rax : ℕ} {s' : Kernel} (h : Spawned s s') :
      CallEffect s c (.spawnAt addr size) (.done rax s')
  | futexWait {uaddr val rax : ℕ} (hl : s.futexWaiters.length < maxFutexWaiters) :
      CallEffect s c (.futex uaddr 0 val)
        (.done rax ({ s with futexWaiters := s.futexWaiters ++ [FutexWaiter.mk uaddr c] }.setState c
          .blocked))
  | futexWake {uaddr val rax : ℕ} {s' : Kernel} (h : Woken uaddr s s') :
      CallEffect s c (.futex uaddr 1 val) (.done rax s')
  | nanosleep {ns : ℕ} : CallEffect s c (.nanosleep ns) (sysNanosleep s ns)
  | shutdown : CallEffect s c .shutdown (.stopped s)

/-- A send either fails and changes nothing, or appends to the target's ring. -/
theorem sysSend_cases {s : Kernel} {targetPid type data len : ℕ} {res : ℤ × Kernel}
    (h : sysSend s targetPid type data len = some res) :
    res = (-1, s) ∨ ∃ i bytes, s.findLive targetPid = some i ∧
      (s.tasks i).ipcCount < ipcQueueSize ∧
      readUserBytes s.machine data (min len ipcMaxData) = some bytes ∧
      res = (0, s.setTask i ((s.tasks i).enqueue s.currentPid type (min len ipcMaxData)
        fun k => bytes.getD k 0)) := by
  unfold sysSend at h
  split at h
  · exact .inl (Option.some.inj h).symm
  next i hi =>
    simp only at h
    split at h
    · exact .inl (Option.some.inj h).symm
    next hr =>
      have hm : (if ipcMaxData < len then ipcMaxData else len) = min len ipcMaxData := by
        split <;> omega
      rw [hm] at h
      obtain ⟨bytes, hb, rfl⟩ := Option.map_eq_some_iff.mp h
      exact .inr ⟨i, bytes, hi, by omega, hb, rfl⟩

/-- A receive either fails and changes nothing, or copies out the oldest message. -/
theorem sysRecv_cases {s : Kernel} {msg : ℕ} {res : ℤ × Kernel} (h : sysRecv s msg = some res) :
    res = (-1, s) ∨ ∃ c m, s.currentTask = some c ∧ (s.tasks c).ipcCount ≠ 0 ∧
      writeUserMsg s.machine msg ((s.tasks c).ipcQueue (s.tasks c).ipcTail) = some m ∧
      res = (0, { s with machine := m }.setTask c
        { s.tasks c with
          ipcTail := ((s.tasks c).ipcTail + 1) % ipcQueueSize
          ipcCount := (s.tasks c).ipcCount - 1 }) := by
  unfold sysRecv at h
  split at h
  · exact .inl (Option.some.inj h).symm
  next c hc =>
    simp only at h
    split at h
    · exact .inl (Option.some.inj h).symm
    next hq =>
      obtain ⟨m, hw, rfl⟩ := Option.map_eq_some_iff.mp h
      exact .inr ⟨c, m, hc, hq, hw, rfl⟩

/-- A wait for a live task records the caller there and blocks it. -/
theorem sysWait_blocks {s : Kernel} {c i pid : ℕ} (hc : s.currentTask = some c)
    (hi : s.findPid pid = some i) (hl : (s.tasks i).state ≠ .exited) :
    sysWait s pid =
      (0, (s.setTask i { s.tasks i with waitIdx := some c }).setState c .blocked) := by
  simp only [sysWait, hi, if_neg hl]
  rw [Kernel.setCurrentState_eq (c := c) .blocked (by exact hc), hc]

section Calls

variable {s : Kernel} {c : ℕ}

private theorem sysSend_effect {targetPid type data len : ℕ} {res : ℤ × Kernel}
    (h : sysSend s targetPid type data len = some res) :
    CallEffect s c (.send targetPid type data len) (returnInt res) := by
  rcases sysSend_cases h with rfl | ⟨i, bytes, hi, hr, hb, rfl⟩
  · exact .quiet (.refl s)
  · exact .send hi hr hb

private theorem sysMmap_quiet (virt size flags : ℕ) : Quiet s (sysMmap s virt size flags).2 := by
  unfold sysMmap
  split
  · exact .refl s
  · exact ⟨_, _, rfl, rfl⟩

private theorem sysMunmap_quiet (virt size : ℕ) : Quiet s (sysMunmap s virt size).2 := by
  unfold sysMunmap
  split
  · exact .refl s
  · exact ⟨_, _, rfl, rfl⟩

private theorem sysMprotect_quiet (virt size flags : ℕ) :
    Quiet s (sysMprotect s virt size flags).2 := by
  unfold sysMprotect
  split
  · exact .refl s
  · exact ⟨_, _, rfl, rfl⟩

private theorem sysMmapPhys_quiet (virt phys size flags : ℕ) :
    Quiet s (sysMmapPhys s virt phys size flags).2 := by
  unfold sysMmapPhys
  split
  · exact .refl s
  · exact ⟨_, _, rfl, rfl⟩

private theorem sysBrk_quiet (addr : ℕ) : Quiet s (sysBrk s addr).2 := by
  unfold sysBrk
  split
  · exact .refl s
  · split
    · exact .refl s
    · simp only
      split <;> exact ⟨_, _, rfl, rfl⟩

private theorem sysKill_effect (pid : ℕ) :
    CallEffect s c (.kill pid) (returnInt (sysKill s pid)) := by
  unfold sysKill
  split
  · exact .quiet (.refl s)
  next i hi => exact .kill hi ((freeUserMemory_root _ _).trans (freeStackPage_root _ _))

private theorem sysSpawnAt_effect {addr size : ℕ} {res : ℤ × Kernel}
    (h : sysSpawnAt s addr size = some res) :
    CallEffect s c (.spawnAt addr size) (returnInt res) := by
  obtain ⟨hcr, hr⟩ := sysSpawnAt_creation h
  cases hcr with
  | failed h => exact .quiet (.memory hr)
  | added hn hre hk hp =>
    have hre : _ = none := hre.elim id id
    subst hre
    exact .spawnAt ⟨_, _, _, _, _, rfl, hr, hn, hk, .inl hp⟩

variable (hc : s.currentTask = some c)
include hc

private theorem sysRecv_effect {msg : ℕ} {res : ℤ × Kernel} (h : sysRecv s msg = some res) :
    CallEffect s c (.recv msg) (returnInt res) := by
  rcases sysRecv_cases h with rfl | ⟨d, m, hd, hq, hw, rfl⟩
  · exact .quiet (.refl s)
  · obtain rfl := Option.some.inj (hc.symm.trans hd)
    exact .recv hq hw

private theorem sysWait_effect (pid : ℕ) :
    CallEffect s c (.wait pid) (returnInt (sysWait s pid)) := by
  cases hi : s.findPid pid with
  | none =>
    simp only [sysWait, hi]
    exact .quiet (.refl s)
  | some i =>
    by_cases hl : (s.tasks i).state = .exited
    · simp only [sysWait, hi, if_pos hl]
      exact .quiet (.refl s)
    · rw [sysWait_blocks hc hi hl]
      exact .wait hi hl

private theorem sysWaitAny_effect : CallEffect s c .waitAny (returnInt (sysWaitAny s)) := by
  unfold sysWaitAny
  split
  · exact .quiet (.refl s)
  next hn =>
    simp only [List.find?_eq_none, List.mem_range, Kernel.live, hc] at hn
    have ht : (fun i => if i < s.numTasks ∧ s.live i ∧ some i ≠ s.currentTask then
        { s.tasks i with waitIdx := s.currentTask } else s.tasks i) = waitAnyTasks s c := by
      funext i
      simp only [waitAnyTasks, hc, ne_eq, Option.some.injEq]
    simp only [ht]
    rw [Kernel.setCurrentState_eq (c := c) .blocked (by exact hc)]
    exact .waitAny fun i hi hic => by simpa [hic] using hn i hi

private theorem sysIrqRegister_effect (irq : ℕ) :
    CallEffect s c (.irqRegister irq) (returnInt (sysIrqRegister s irq)) := by
  unfold sysIrqRegister
  split
  · exact .quiet (.refl s)
  next hi =>
    split
    next hn => simp [hn] at hc
    next c' hc' =>
      obtain rfl := Option.some.inj (hc.symm.trans hc')
      exact .irqRegister (by omega)

private theorem sysClone_effect (flags userStack entry arg : ℕ) :
    CallEffect s c (.clone flags userStack entry arg)
      (returnInt (sysClone s flags userStack entry arg)) := by
  unfold sysClone
  split
  next hn => simp [hn] at hc
  next c' hc' =>
    obtain rfl := Option.some.inj (hc.symm.trans hc')
    have hr := pmmAllocPage_root s.machine
    split
    · exact .quiet (.refl s)
    next hn =>
      simp only
      split
      · exact .quiet (.memory hr)
      next hk => exact .clone ⟨_, _, _, _, _, rfl, hr, by omega, hk, .inr ⟨c, hc, rfl⟩⟩

private theorem sysFutex_effect {uaddr val : ℕ} {op : ℤ} {res : ℤ × Kernel}
    (h : sysFutex s uaddr op val = some res) :
    CallEffect s c (.futex uaddr op val) (returnInt res) := by
  unfold sysFutex at h
  split at h
  next hn => simp [hn] at hc
  next c' hc' =>
    obtain rfl := Option.some.inj (hc.symm.trans hc')
    split at h
    next ho =>
      subst ho
      obtain ⟨word, -, rfl⟩ := Option.map_eq_some_iff.mp h
      split
      · exact .quiet (.refl s)
      · split
        · exact .quiet (.refl s)
        next hl => exact .futexWait (by omega)
    · split at h
      next ho =>
        subst ho
        obtain rfl := Option.some.inj h
        exact .futexWake (futexWakeLoop_woken ..)
      · obtain rfl := Option.some.inj h
        exact .quiet (.refl s)

/-- Every system call of the current task has one of the listed effects. -/
theorem syscallHandler_effect {io : Ports} {call : Syscall} {o : SysOutcome}
    (h : syscallHandler s io call = some o) : CallEffect s c call o := by
  have hq {o' : SysOutcome} {rax : ℕ} {s' : Kernel} (hs : Quiet s s')
      (ho : o' = .done rax s') (he : some o' = some o) : CallEffect s c call o := by
    obtain rfl := Option.some.inj he
    subst ho
    exact .quiet hs
  cases call with
  | exit =>
    obtain rfl := Option.some.inj h
    exact .exit
  | send targetPid type data len =>
    obtain ⟨res, hres, rfl⟩ := Option.map_eq_some_iff.mp h
    exact sysSend_effect hres
  | recv msg =>
    obtain ⟨res, hres, rfl⟩ := Option.map_eq_some_iff.mp h
    exact sysRecv_effect hc hres
  | wait pid =>
    obtain rfl := Option.some.inj h
    exact sysWait_effect hc pid
  | waitAny =>
    obtain rfl := Option.some.inj h
    exact sysWaitAny_effect hc
  | irqRegister irq =>
    obtain rfl := Option.some.inj h
    exact sysIrqRegister_effect hc irq
  | kill pid =>
    obtain rfl := Option.some.inj h
    exact sysKill_effect pid
  | clone flags userStack entry arg =>
    obtain rfl := Option.some.inj h
    exact sysClone_effect hc flags userStack entry arg
  | spawnAt addr size =>
    obtain ⟨res, hres, rfl⟩ := Option.map_eq_some_iff.mp h
    exact sysSpawnAt_effect hres
  | futex uaddr op val =>
    obtain ⟨res, hres, rfl⟩ := Option.map_eq_some_iff.mp h
    exact sysFutex_effect hc hres
  | nanosleep ns =>
    obtain rfl := Option.some.inj h
    exact .nanosleep
  | shutdown =>
    obtain rfl := Option.some.inj h
    exact .shutdown
  | mmap virt size flags => exact hq (sysMmap_quiet virt size flags) rfl h
  | munmap virt size => exact hq (sysMunmap_quiet virt size) rfl h
  | mprotect virt size flags => exact hq (sysMprotect_quiet virt size flags) rfl h
  | brk addr => exact hq (sysBrk_quiet addr) rfl h
  | mmapPhys virt phys size flags => exact hq (sysMmapPhys_quiet virt phys size flags) rfl h
  | getpid => exact hq (.refl s) rfl h
  | inb port => exact hq (.refl s) rfl h
  | outb => exact hq (.refl s) rfl h
  | getstate pid => exact hq (.refl s) rfl h
  | getticks => exact hq (.refl s) rfl h
  | debugPutc => exact hq (.refl s) rfl h
  | irqAck => exact hq (.refl s) rfl h
  | inw port => exact hq (.refl s) rfl h
  | outw => exact hq (.refl s) rfl h
  | yield => exact hq (.refl s) rfl h
  | unknown => exact hq (.refl s) rfl h

end Calls

end Mukrn
