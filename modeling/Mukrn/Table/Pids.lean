import Mukrn.Table.Current

/-! Process numbers. Slots are never reused after boot, so a slot keeps its pid and no two
slots share one. -/
namespace Mukrn
open Runs

/-- States of runs from boot. -/
def Reachable (x : System) : Prop :=
  ∃ cfg x0, kmain cfg = some x0 ∧ Reach step anyStep x0 x

/-- What creation fixes for the life of a slot. -/
def Task.identity (t : Task) : ℕ × ℕ × ℕ × ℕ := (t.pid, t.pml4Phys, t.loadAddr, t.codePages)

/-- No task was created, and the slots in use are those of the same tasks. -/
structure SameTasks (s s' : Kernel) : Prop where
  numTasks : s'.numTasks = s.numTasks
  nextPid : s'.nextPid = s.nextPid
  identity : ∀ i, (s'.tasks i).identity = (s.tasks i).identity

namespace SameTasks

variable {s s' s'' : Kernel}

theorem refl (s : Kernel) : SameTasks s s := ⟨rfl, rfl, fun _ => rfl⟩

theorem trans (h : SameTasks s s') (h' : SameTasks s' s'') : SameTasks s s'' :=
  ⟨h'.numTasks.trans h.numTasks, h'.nextPid.trans h.nextPid,
    fun i => (h'.identity i).trans (h.identity i)⟩

theorem ofTable (h : SameTable s s') : SameTasks s s' := by
  refine ⟨h.numTasks, h.nextPid, fun i => ?_⟩
  obtain ⟨st, rsp, hi⟩ := h.tasks i
  rw [hi]
  rfl

theorem setState (s : Kernel) (i : ℕ) (st : TaskState) : SameTasks s (s.setState i st) :=
  ofTable (setState_sameTable s i st)

theorem setTask {i : ℕ} {t : Task} (ht : t.identity = (s.tasks i).identity) :
    SameTasks s (s.setTask i t) := by
  refine ⟨rfl, rfl, fun j => ?_⟩
  rw [Kernel.setTask_apply]
  split
  next hj => rw [hj, ht]
  · rfl

theorem pid (h : SameTasks s s') (i : ℕ) : (s'.tasks i).pid = (s.tasks i).pid :=
  congrArg Prod.fst (h.identity i)

theorem sysExit {c : ℕ} (hc : s.currentTask = some c) : SameTasks s (sysExit s) := by
  rw [sysExit_eq hc]
  refine ⟨rfl, rfl, fun j => ?_⟩
  simp only [exitTasks]
  split
  next hj => rw [hj]; rfl
  · rfl

theorem irqEffect (s : Kernel) (io : Ports) (n : ℕ) : SameTasks s (irqEffect s io n) := by
  unfold Mukrn.irqEffect keyboardIrq
  split
  · exact ⟨rfl, rfl, fun _ => rfl⟩
  · split
    · split
      · exact refl s
      · split
        · exact setTask rfl
        · exact refl s
    · exact refl s

end SameTasks

/-- A call creates a task or leaves the slots to the same tasks. -/
theorem CallEffect.sameTasks {s : Kernel} {c : ℕ} {call : Syscall} {o : SysOutcome}
    (he : CallEffect s c call o) (hc : s.currentTask = some c) :
    SameTasks s o.kernel ∨ Spawned s o.kernel := by
  cases he with
  | quiet hq =>
    obtain ⟨m, b, rfl, -⟩ := hq
    exact .inl ⟨rfl, rfl, fun _ => rfl⟩
  | exit => exact .inl (.sysExit hc)
  | send => exact .inl (.setTask rfl)
  | @recv msg rax m hq hw =>
    have hm : SameTasks s { s with machine := m } := ⟨rfl, rfl, fun _ => rfl⟩
    exact .inl (hm.trans (.setTask rfl))
  | @wait pid i rax hi hl =>
    have hw : SameTasks s (s.setTask i { s.tasks i with waitIdx := some c }) := .setTask rfl
    exact .inl (hw.trans (.setState ..))
  | waitAny =>
    have hw : SameTasks s { s with tasks := waitAnyTasks s c } := by
      refine ⟨rfl, rfl, fun j => ?_⟩
      simp only [waitAnyTasks]
      split <;> rfl
    exact .inl (hw.trans (.setState ..))
  | irqRegister => exact .inl ⟨rfl, rfl, fun _ => rfl⟩
  | @kill pid i rax m hi hr =>
    have hk := SameTasks.setState s i .exited
    exact .inl ⟨hk.numTasks, hk.nextPid, hk.identity⟩
  | clone hs => exact .inr hs
  | spawnAt hs => exact .inr hs
  | @futexWait uaddr val rax hl =>
    have hw : SameTasks s
        { s with futexWaiters := s.futexWaiters ++ [FutexWaiter.mk uaddr c] } :=
      ⟨rfl, rfl, fun _ => rfl⟩
    exact .inl (hw.trans (.setState ..))
  | futexWake hw =>
    obtain ⟨st, l, rfl, -⟩ := hw
    exact .inl ⟨rfl, rfl, fun _ => rfl⟩
  | nanosleep => exact .inl (.ofTable (sysNanosleep_sameTable ..))
  | shutdown => exact .inl (.refl s)

theorem Served.sameTasks {x : System} {c : ℕ} {q : Request} {k : Kernel} (hs : Served x q k)
    (hc : x.kernel.currentTask = some c) : SameTasks x.kernel k ∨ Spawned x.kernel k := by
  cases hs with
  | none => exact .inl (.refl _)
  | store => exact .inl ⟨rfl, rfl, fun _ => rfl⟩
  | fault => exact .inl (.sysExit hc)
  | irq => exact .inl (.irqEffect ..)
  | call ho => exact (syscallHandler_effect hc ho).sameTasks hc
  | asleep =>
    have hi := SameTasks.irqEffect x.kernel
    exact .inl ((hi _ _).trans (.ofTable (sleepLoop_sameTable ..)))

/-- A slot in use stays in use, with the same task. -/
theorem Served.slot {x : System} {c j : ℕ} {q : Request} {k : Kernel} (hs : Served x q k)
    (hc : x.kernel.currentTask = some c) (hj : j < x.kernel.numTasks) :
    j < k.numTasks ∧ (k.tasks j).identity = (x.kernel.tasks j).identity := by
  rcases hs.sameTasks hc with h | h
  · exact ⟨h.numTasks ▸ hj, h.identity j⟩
  · obtain ⟨m, kstack, pml4, la, cp, rfl, -⟩ := h
    refine ⟨Nat.lt_succ_of_lt hj, ?_⟩
    simp only [addTask, Option.getD_none, Kernel.setTask_apply, if_neg hj.ne]

theorem step_slot {x y : System} {i : Input} {c j : ℕ} (hs : step x i = some y)
    (hc : x.kernel.currentTask = some c) (hj : j < x.kernel.numTasks) :
    j < y.kernel.numTasks ∧ (y.kernel.tasks j).identity = (x.kernel.tasks j).identity := by
  obtain ⟨k, hk, hf⟩ := step_finish hs
  obtain ⟨hn, hi⟩ := (serve_cases hk).slot hc hj
  have hsame := SameTasks.ofTable hf.sameTable
  exact ⟨hsame.numTasks ▸ hn, (hsame.identity j).trans hi⟩

/-- The first task has pid 1 and the task in slot `i` after it pid `7 + i`. -/
structure Numbered (s : Kernel) : Prop where
  pos : 0 < s.numTasks
  le : s.numTasks ≤ maxTasks
  pid : ∀ i < s.numTasks, (s.tasks i).pid = if i = 0 then 1 else 7 + i
  next : s.nextPid = 7 + s.numTasks

namespace Numbered

variable {s s' : Kernel}

theorem pid_inj (h : Numbered s) {i j : ℕ} (hi : i < s.numTasks) (hj : j < s.numTasks)
    (hp : (s.tasks i).pid = (s.tasks j).pid) : i = j := by
  rw [h.pid i hi, h.pid j hj] at hp
  split at hp <;> split at hp <;> omega

theorem sameTasks (h : Numbered s) (hs : SameTasks s s') : Numbered s' := by
  refine ⟨hs.numTasks ▸ h.pos, hs.numTasks ▸ h.le, fun i hi => ?_, ?_⟩
  · rw [hs.pid i]
    exact h.pid i (hs.numTasks ▸ hi)
  · rw [hs.nextPid, hs.numTasks]
    exact h.next

/-- The pid counter does not wrap, because there are at most 64 slots. -/
theorem spawned (h : Numbered s) (hs : Spawned s s') : Numbered s' := by
  obtain ⟨m, kstack, pml4, la, cp, rfl, -, hn, -⟩ := hs
  have hnext := h.next
  have hpos := h.pos
  have hle : maxTasks = 64 := rfl
  refine ⟨Nat.succ_pos _, hn, fun i hi => ?_, ?_⟩
  · simp only [addTask, Option.getD_none, Kernel.setTask_apply]
    simp only [addTask, Option.isSome_none, Bool.false_eq_true, if_false] at hi
    split
    next he =>
      have hi0 : ¬ i = 0 := by omega
      rw [if_neg hi0]
      exact hnext.trans (by rw [he])
    · exact h.pid i (by omega)
  · simp only [addTask, Option.isSome_none, Bool.false_eq_true, if_false, Nat.lt_irrefl]
    omega

theorem step {x y : System} {i : Input} {c : ℕ} (h : Numbered x.kernel)
    (hc : x.kernel.currentTask = some c) (hs : step x i = some y) : Numbered y.kernel := by
  obtain ⟨k, hk, hf⟩ := step_finish hs
  have hn : Numbered k := ((serve_cases hk).sameTasks hc).elim h.sameTasks h.spawned
  exact hn.sameTasks (.ofTable hf.sameTable)

end Numbered

/-- No task exists and the kernel has halted, or the table invariants hold. -/
def HaltedOrNumbered (x : System) : Prop :=
  (x.phase = .stopped ∧ x.kernel.currentTask = none) ∨
    (∃ c, Scheduled x.kernel c) ∧ Numbered x.kernel

theorem Creation.start {m : Machine} {res : ℤ × Kernel} (h : Creation (initialKernel m) 1 res) :
    HaltedOrNumbered (schedulerStart res.2) := by
  have hun : Unstarted res.2 := (Created.init m).unstarted.creation h
  cases h with
  | failed m => exact .inl ⟨rfl, rfl⟩
  | @added m reuse kstack pml4 la cp hn hr hk hp =>
    have hre : reuse = none := hr.elim id id
    subst hre
    refine .inr ⟨⟨0, hun.start (Nat.succ_pos _)⟩, Nat.succ_pos _, ?_, fun i hi => ?_, rfl⟩
    · exact Nat.succ_le_of_lt hn
    · obtain rfl : i = 0 := Nat.lt_one_iff.mp hi
      rfl

/-- After boot either the kernel has halted or init is current. -/
theorem kmain_cases {cfg : BootConfig} {x : System} (h : kmain cfg = some x) :
    HaltedOrNumbered x := by
  obtain ⟨res, hc, rfl⟩ := Option.map_eq_some_iff.mp h
  exact (taskCreate_creation hc).start

theorem HaltedOrNumbered.step {x y : System} {i : Input} (h : HaltedOrNumbered x)
    (hs : Mukrn.step x i = some y) : HaltedOrNumbered y := by
  rcases h with ⟨hp, -⟩ | ⟨⟨d, hd⟩, hn⟩
  · rw [step_stopped hp] at hs
    cases hs
  · exact .inr ⟨hd.step hs, hn.step hd.current hs⟩

theorem Reachable.haltedOrNumbered {x : System} (h : Reachable x) : HaltedOrNumbered x := by
  obtain ⟨cfg, x0, hk, hr⟩ := h
  refine hr.invariant (kmain_cases hk) ?_
  intro t i u ht _ hu
  exact ht.step hu

/-- Reachable states with a current task satisfy the table invariants. -/
theorem Reachable.table {x : System} {c : ℕ} (h : Reachable x)
    (hc : x.kernel.currentTask = some c) : Scheduled x.kernel c ∧ Numbered x.kernel := by
  rcases h.haltedOrNumbered with ⟨-, hn⟩ | ⟨⟨d, hd⟩, hn⟩
  · rw [hn] at hc
    cases hc
  · obtain rfl := Option.some.inj (hc.symm.trans hd.current)
    exact ⟨hd, hn⟩

end Mukrn
