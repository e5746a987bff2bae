import Mukrn.Table.Runnable

/-! Process identity. Bare slot indices are kept in three tables; they only name slots in use,
and a slot in use belongs to one pid for the rest of the run. -/
namespace Mukrn
open Runs

/-- Index `w` is kept in a `wait_idx`, in `irq_handlers` or in a futex entry. -/
def Stored (s : Kernel) (w : ℕ) : Prop :=
  (∃ j < s.numTasks, (s.tasks j).waitIdx = some w) ∨ (∃ n, s.irqHandlers n = some w) ∨
    ∃ e ∈ s.futexWaiters, e.taskIdx = w

/-- Stored indices name slots in use, and slots that were never used are exited. -/
structure Indexed (s : Kernel) : Prop where
  stored : ∀ w, Stored s w → w < s.numTasks
  idle : ∀ j, s.numTasks ≤ j → (s.tasks j).state = .exited

namespace Indexed

variable {s k : Kernel} {c : ℕ}

/-- New indices name slots in use, and unused slots keep their state. -/
theorem congr (h : Indexed s) (hn : s.numTasks ≤ k.numTasks)
    (hw : ∀ w, Stored k w → Stored s w ∨ w < s.numTasks)
    (hi : ∀ j, k.numTasks ≤ j → (k.tasks j).state = (s.tasks j).state) : Indexed k := by
  constructor
  · intro w hkw
    rcases hw w hkw with hsw | hlt
    · exact (h.stored w hsw).trans_le hn
    · exact hlt.trans_le hn
  · intro j hj
    rw [hi j hj, h.idle j (hn.trans hj)]

/-- Memory, root, clock and heap break play no part. -/
theorem sameTables (h : Indexed s) (ht : k.tasks = s.tasks) (hn : k.numTasks = s.numTasks)
    (hi : k.irqHandlers = s.irqHandlers) (hf : k.futexWaiters = s.futexWaiters) : Indexed k := by
  apply h.congr hn.ge
  · intro w hw
    unfold Stored at hw ⊢
    rw [ht, hn, hi, hf] at hw
    exact .inl hw
  · intro j _
    rw [ht]

/-- A slot in use changes. -/
theorem setTask (h : Indexed s) {i : ℕ} {t : Task} (hi : i < s.numTasks)
    (ht : ∀ w, t.waitIdx = some w → (s.tasks i).waitIdx = some w ∨ w < s.numTasks) :
    Indexed (s.setTask i t) := by
  apply h.congr
  · exact le_rfl
  · rintro w (⟨j, hj, hw⟩ | hw)
    · rw [Kernel.setTask_apply] at hw
      split at hw
      next hji =>
        rcases ht w hw with hw | hw
        · exact .inl (.inl ⟨i, hi, hw⟩)
        · exact .inr hw
      · exact .inl (.inl ⟨j, hj, hw⟩)
    · exact .inl (.inr hw)
  · intro j hj
    have hji : j ≠ i := (hi.trans_le hj).ne'
    rw [Kernel.setTask_apply, if_neg hji]

theorem setState (h : Indexed s) {i : ℕ} (hi : i < s.numTasks) (st : TaskState) :
    Indexed (s.setState i st) := h.setTask hi fun _ hw => .inl hw

theorem setCurrentState (h : Indexed s) (hc : s.currentTask = some c) (hcn : c < s.numTasks)
    (st : TaskState) : Indexed (s.setCurrentState st) := by
  rw [Kernel.setCurrentState_eq st hc]
  exact h.setState hcn st

theorem sleepLoop (h : Indexed s) (hc : s.currentTask = some c) (hcn : c < s.numTasks)
    (start target : ℕ) : Indexed (sleepLoop s start target).kernel := by
  unfold Mukrn.sleepLoop
  split
  · exact h.setCurrentState hc hcn _
  · exact h.setCurrentState hc hcn _

theorem sysExit (h : Indexed s) (hc : s.currentTask = some c) (hcn : c < s.numTasks) :
    Indexed (sysExit s) := by
  rw [sysExit_eq hc]
  apply h.congr
  · exact le_rfl
  · rintro w (⟨j, hj, hw⟩ | hw)
    · refine .inl (.inl ⟨j, hj, ?_⟩)
      simp only [exitTasks] at hw
      split at hw
      next hjc => rw [hjc, ← hw]
      · exact hw
    · exact .inl (.inr hw)
  · intro j hj
    have hjc : j ≠ c := (hcn.trans_le hj).ne'
    have hjw : (s.tasks c).waitIdx ≠ some j := by
      intro hw
      exact absurd (h.stored j (.inl ⟨c, hcn, hw⟩)) (Nat.not_lt.mpr hj)
    simp only [exitTasks, if_neg hjc, if_neg hjw]

theorem irqEffect (h : Indexed s) (io : Ports) (n : ℕ) : Indexed (irqEffect s io n) := by
  unfold Mukrn.irqEffect keyboardIrq
  split
  · exact h.sameTables rfl rfl rfl rfl
  · split
    · split
      · exact h
      next i hi =>
        split
        · exact h.setTask (h.stored i (.inr (.inl ⟨1, hi⟩))) fun _ hw => .inl hw
        · exact h
    · exact h

theorem spawned (h : Indexed s) (hs : Spawned s k) : Indexed k := by
  obtain ⟨m, kstack, pml4, la, cp, rfl, -⟩ := hs
  apply h.congr (Nat.le_succ _)
  · rintro w (⟨j, hj, hw⟩ | hw)
    · simp only [addTask, Option.getD_none, Kernel.setTask_apply] at hw
      split at hw
      · cases hw
      next hjn =>
        have hj : j < s.numTasks + 1 := hj
        exact .inl (.inl ⟨j, by omega, hw⟩)
    · exact .inl (.inr hw)
  · intro j hj
    have hj : s.numTasks + 1 ≤ j := hj
    have hjn : j ≠ s.numTasks := by omega
    simp only [addTask, Option.getD_none, Kernel.setTask_apply, if_neg hjn]

theorem woken (h : Indexed s) {uaddr : ℕ} (hw : Woken uaddr s k) : Indexed k := by
  obtain ⟨st, l, rfl, hle, -, hst⟩ := hw
  apply h.congr
  · exact le_rfl
  · rintro w (hw | hw | ⟨e, he, hew⟩)
    · exact .inl (.inl hw)
    · exact .inl (.inr (.inl hw))
    · have hpos := List.count_pos_iff.mpr he
      exact .inl (.inr (.inr ⟨e, List.count_pos_iff.mp (hpos.trans_le (hle e)), hew⟩))
  · intro j hj
    have hidle := h.idle j hj
    rcases hst j with ⟨hb, -⟩ | ⟨-, hsame⟩
    · rw [hidle] at hb
      cases hb
    · exact hsame

/-- A call stores no other index than the caller's. -/
theorem callEffect (h : Indexed s) (hc : s.currentTask = some c) (hcn : c < s.numTasks)
    {call : Syscall} {o : SysOutcome} (he : CallEffect s c call o) : Indexed o.kernel := by
  cases he with
  | quiet hq =>
    obtain ⟨m, b, rfl, -⟩ := hq
    exact h.sameTables rfl rfl rfl rfl
  | exit => exact h.sysExit hc hcn
  | send hi => exact h.setTask (Kernel.findLive_spec hi).1 fun _ hw => .inl hw
  | @recv msg rax m hq hw =>
    have hm : Indexed { s with machine := m } := h.sameTables rfl rfl rfl rfl
    exact hm.setTask hcn fun _ hw => .inl hw
  | @wait pid i rax hi hl =>
    have hset : Indexed (s.setTask i { s.tasks i with waitIdx := some c }) := by
      apply h.setTask (Kernel.findPid_spec hi).1
      intro w hw
      exact .inr (Option.some.inj hw ▸ hcn)
    exact hset.setState hcn _
  | waitAny =>
    have hset : Indexed { s with tasks := waitAnyTasks s c } := by
      apply h.congr
      · exact le_rfl
      · rintro w (⟨j, hj, hw⟩ | hw)
        · simp only [waitAnyTasks] at hw
          split at hw
          · exact .inr (Option.some.inj hw ▸ hcn)
          · exact .inl (.inl ⟨j, hj, hw⟩)
        · exact .inl (.inr hw)
      · intro j _
        simp only [waitAnyTasks]
        split <;> rfl
    exact hset.setState hcn _
  | @irqRegister irq rax hi =>
    apply h.congr
    · exact le_rfl
    · rintro w (hw | ⟨n, hw⟩ | hw)
      · exact .inl (.inl hw)
      · change Function.update s.irqHandlers irq (some c) n = some w at hw
        by_cases hn : n = irq
        · rw [hn, Function.update_self] at hw
          exact .inr (Option.some.inj hw ▸ hcn)
        · rw [Function.update_of_ne hn] at hw
          exact .inl (.inr (.inl ⟨n, hw⟩))
      · exact .inl (.inr (.inr hw))
    · intro j _
      rfl
  | @kill pid i rax m hi hr =>
    have hset := h.setState (Kernel.findLive_spec hi).1 .exited
    exact hset.sameTables rfl rfl rfl rfl
  | clone hs => exact h.spawned hs
  | spawnAt hs => exact h.spawned hs
  | @futexWait uaddr val rax hl =>
    have hset : Indexed { s with futexWaiters := s.futexWaiters ++ [FutexWaiter.mk uaddr c] } := by
      apply h.congr
      · exact le_rfl
      · rintro w (hw | hw | ⟨e, he, hew⟩)
        · exact .inl (.inl hw)
        · exact .inl (.inr (.inl hw))
        · rcases List.mem_append.mp he with he | he
          · exact .inl (.inr (.inr ⟨e, he, hew⟩))
          · rw [List.mem_singleton.mp he] at hew
            exact .inr (hew ▸ hcn)
      · intro j _
        rfl
    exact hset.setState hcn _
  | futexWake hw => exact h.woken hw
  | nanosleep => exact h.sleepLoop hc hcn _ _
  | shutdown => exact h

theorem served {x : System} (h : Indexed x.kernel) (hs : Scheduled x.kernel c) {q : Request}
    (hq : Served x q k) : Indexed k := by
  cases hq with
  | none => exact h
  | store => exact h.sameTables rfl rfl rfl rfl
  | fault => exact h.sysExit hs.current hs.lt
  | irq => exact h.irqEffect ..
  | call ho => exact h.callEffect hs.current hs.lt (syscallHandler_effect hs.current ho)
  | @asleep io n start target =>
    have hi := hs.irqEffect io n
    exact (h.irqEffect io n).sleepLoop hi.current hi.lt start target

theorem dispatch (h : Indexed s) {n : ℕ} (hn : n < s.numTasks) :
    Indexed (dispatch s n).system.kernel := by
  rw [dispatch_kernel]
  exact (h.setState hn .running).sameTables rfl rfl rfl rfl

theorem saveFrame (h : Indexed s) (hcn : c < s.numTasks) (r : Registers) :
    Indexed (saveFrame s c r) := by
  have hset : Indexed (s.setTask c { s.tasks c with rsp := (s.tasks c).stackPhys }) :=
    h.setTask hcn fun _ hw => .inl hw
  exact hset.sameTables rfl rfl rfl rfl

theorem yieldCaller (h : Indexed s) (hcn : c < s.numTasks) (r : Registers) :
    Indexed (yieldCaller s c r) := by
  unfold Mukrn.yieldCaller
  dsimp only
  split
  · exact (h.saveFrame hcn r).setState hcn .ready
  · exact h.saveFrame hcn r

theorem finish (h : Indexed k) (hs : Scheduled k c) {y : System} (hf : Finish k y) :
    Indexed y.kernel := by
  cases hf with
  | stay => exact h
  | timer r hd =>
    obtain rfl := Option.some.inj (hd.symm.trans hs.current)
    exact ((h.saveFrame hs.lt r).setState hs.lt .ready).dispatch
      (nextTask_lt (hs.preempt r).1.lt)
  | call r hd =>
    obtain rfl := Option.some.inj (hd.symm.trans hs.current)
    exact (h.yieldCaller hs.lt r).dispatch (nextTask_lt (hs.yieldCaller r).1.lt)
  | fault _ hi => exact h.dispatch (List.mem_range.mp (List.mem_of_find?_eq_some hi))

theorem step {x y : System} {i : Input} (h : Indexed x.kernel) (hs : Scheduled x.kernel c)
    (hy : step x i = some y) : Indexed y.kernel := by
  obtain ⟨k, hk, hf⟩ := step_finish hy
  have hserved := serve_cases hk
  exact (h.served hs hserved).finish (hs.served hserved) hf

end Indexed

/-- No task has been created, or one is current and the table invariants hold. -/
def EmptyOrNumbered (x : System) : Prop :=
  (x.phase = .stopped ∧ x.kernel.numTasks = 0) ∨ (∃ c, Scheduled x.kernel c) ∧ Numbered x.kernel

/-- The table after boot holds no index and at most one task. -/
theorem Creation.indexed {m : Machine} {res : ℤ × Kernel} (h : Creation (initialKernel m) 1 res) :
    EmptyOrNumbered (schedulerStart res.2) ∧ Indexed (schedulerStart res.2).kernel := by
  have hstart := h.start
  cases h with
  | failed m =>
    refine ⟨.inl ⟨rfl, rfl⟩, ?_, fun j _ => initialKernel_state m j⟩
    rintro w (⟨j, hj, -⟩ | ⟨n, hn⟩ | ⟨e, he, -⟩)
    · exact absurd hj (Nat.not_lt_zero j)
    · cases hn
    · cases he
  | @added m' reuse kstack pml4 la cp hn hr hk hp =>
    have hre : reuse = none := hr.elim id id
    subst hre
    constructor
    · rcases hstart with ⟨-, hcur⟩ | hsch
      · cases hcur
      · exact .inr hsch
    · have hadd : Indexed (addTask (initialKernel m) m' none 1 kstack pml4 la cp).2 := by
        constructor
        · rintro w (⟨j, hj, hw⟩ | ⟨n, hn⟩ | ⟨e, he, -⟩)
          · obtain rfl : j = 0 := Nat.lt_one_iff.mp hj
            cases hw
          · cases hn
          · cases he
        · intro j hj
          have hj0 : j ≠ 0 := (Nat.lt_of_succ_le hj).ne'
          change (Function.update (initialKernel m).tasks 0 _ j).state = .exited
          rw [Function.update_of_ne hj0]
          exact initialKernel_state m j
      have hset := hadd.setState (i := 0) Nat.one_pos .running
      exact hset.sameTables rfl rfl rfl rfl

/-- Reachable states are empty or numbered, and their stored indices name slots in use. -/
theorem Reachable.indexed {x : System} (h : Reachable x) :
    EmptyOrNumbered x ∧ Indexed x.kernel := by
  obtain ⟨cfg, x0, hk, hr⟩ := h
  apply hr.invariant (P := fun x => EmptyOrNumbered x ∧ Indexed x.kernel)
  · obtain ⟨res, hc, rfl⟩ := Option.map_eq_some_iff.mp hk
    exact (taskCreate_creation hc).indexed
  · rintro t i u ⟨ht, hidx⟩ - hu
    rcases ht with ⟨hp, -⟩ | ⟨⟨c, hs⟩, hn⟩
    · rw [step_stopped hp] at hu
      cases hu
    · exact ⟨.inr ⟨hs.step hu, hn.step hs.current hu⟩, hidx.step hs hu⟩

theorem Reachable.trans {x y : System} (h : Reachable x) (hy : Reach step anyStep x y) :
    Reachable y := by
  obtain ⟨cfg, x0, hk, hr⟩ := h
  exact ⟨cfg, x0, hk, hr.trans hy⟩

/-- While a task is in user mode its slot is the current one, and the pids follow the slots. -/
theorem Reachable.scheduled {x : System} {c : ℕ} (h : Reachable x) (hp : x.phase ≠ .stopped)
    (hc : x.kernel.currentTask = some c) : Scheduled x.kernel c ∧ Numbered x.kernel := by
  rcases h.indexed.1 with ⟨hstop, -⟩ | ⟨⟨d, hs⟩, hn⟩
  · exact absurd hstop hp
  · obtain rfl := Option.some.inj (hc.symm.trans hs.current)
    exact ⟨hs, hn⟩

/-- The pid a call looks up. -/
def Syscall.pid : Syscall → Option ℕ
  | .send pid _ _ _ | .wait pid | .getstate pid | .kill pid => some pid
  | _ => none

/-- The slot such a call acts on: `send` and `kill` skip exited tasks, the others do not. -/
def Syscall.target (s : Kernel) : Syscall → Option ℕ
  | .send pid _ _ _ | .kill pid => s.findLive pid
  | .wait pid | .getstate pid => s.findPid pid
  | _ => none

section Lookup

variable {s : Kernel} {i pid : ℕ}

theorem Numbered.findPid_eq (h : Numbered s) (hi : i < s.numTasks) :
    s.findPid (s.tasks i).pid = some i := by
  cases hf : s.findPid (s.tasks i).pid with
  | none =>
    have hno := List.find?_eq_none.mp hf i (List.mem_range.mpr hi)
    exact absurd (beq_self_eq_true _) hno
  | some j =>
    obtain ⟨hj, hp⟩ := Kernel.findPid_spec hf
    rw [h.pid_inj hj hi hp]

theorem Numbered.findLive_eq (h : Numbered s) (hi : i < s.numTasks) :
    s.findLive (s.tasks i).pid = if s.live i then some i else none := by
  cases hf : s.findLive (s.tasks i).pid with
  | none =>
    have hno := List.find?_eq_none.mp hf i (List.mem_range.mpr hi)
    have hdead : ¬ s.live i := by simpa using hno
    rw [if_neg hdead]
  | some j =>
    obtain ⟨hj, hp, hl⟩ := Kernel.findLive_spec hf
    obtain rfl := h.pid_inj hj hi hp
    have hlive : s.live j := by simpa [Kernel.live] using hl
    rw [if_pos hlive]

/-- A call that names the pid of slot `i` finds this slot, or nothing once the task has exited. -/
theorem Numbered.target_eq (h : Numbered s) (hi : i < s.numTasks) {call : Syscall}
    (hcall : call.pid = some (s.tasks i).pid) :
    call.target s = some i ∨ call.target s = none ∧ (s.tasks i).state = .exited := by
  have hlive : s.findLive (s.tasks i).pid = some i ∨
      s.findLive (s.tasks i).pid = none ∧ (s.tasks i).state = .exited := by
    rw [h.findLive_eq hi]
    by_cases hl : s.live i
    · exact .inl (if_pos hl)
    · exact .inr ⟨if_neg hl, by simpa [Kernel.live] using hl⟩
  cases call with
  | send pid type data len =>
    obtain rfl := Option.some.inj hcall
    exact hlive
  | kill pid =>
    obtain rfl := Option.some.inj hcall
    exact hlive
  | wait pid =>
    obtain rfl := Option.some.inj hcall
    exact .inl (h.findPid_eq hi)
  | getstate pid =>
    obtain rfl := Option.some.inj hcall
    exact .inl (h.findPid_eq hi)
  | _ => cases hcall

end Lookup

/-- The slots in use of a run's later states are those of the same tasks. -/
theorem Reachable.slot {x y : System} (hx : Reachable x) (hy : Reach step anyStep x y) {i : ℕ}
    (hi : i < x.kernel.numTasks) :
    i < y.kernel.numTasks ∧ (y.kernel.tasks i).identity = (x.kernel.tasks i).identity := by
  induction hy with
  | refl => exact ⟨hi, rfl⟩
  | @tail t u input ht _ hu ih =>
    obtain ⟨hit, hid⟩ := ih
    rcases (hx.trans ht).indexed.1 with ⟨-, h0⟩ | ⟨⟨c, hs⟩, -⟩
    · omega
    · obtain ⟨hiu, hidu⟩ := step_slot hu hs.current hit
      exact ⟨hiu, hidu.trans hid⟩

/-- In every state of a run the pids of the slots in use are distinct and not zero. From there on
these slots keep their pids, stored indices name slots in use, and every call that names a pid
finds the slot it belongs to. -/
theorem process_identity {x y : System} (hx : Reachable x) (hy : Reach step anyStep x y) :
    (∀ i < x.kernel.numTasks, (x.kernel.tasks i).pid ≠ 0 ∧
      ∀ j < x.kernel.numTasks, (x.kernel.tasks i).pid = (x.kernel.tasks j).pid → i = j) ∧
    (∀ i < x.kernel.numTasks, i < y.kernel.numTasks ∧
      (y.kernel.tasks i).pid = (x.kernel.tasks i).pid) ∧
    (∀ w, Stored x.kernel w → w < x.kernel.numTasks) ∧
    ∀ i < x.kernel.numTasks, ∀ call : Syscall, call.pid = some (x.kernel.tasks i).pid →
      call.target y.kernel = some i ∨
        call.target y.kernel = none ∧ (y.kernel.tasks i).state = .exited := by
  have hslot {i : ℕ} (hi : i < x.kernel.numTasks) : i < y.kernel.numTasks ∧
      (y.kernel.tasks i).pid = (x.kernel.tasks i).pid := by
    obtain ⟨hiy, hid⟩ := hx.slot hy hi
    exact ⟨hiy, congrArg Prod.fst hid⟩
  obtain ⟨hcase, hidx⟩ := hx.indexed
  refine ⟨?_, fun i hi => hslot hi, hidx.stored, ?_⟩
  · intro i hi
    rcases hcase with ⟨-, h0⟩ | ⟨-, hn⟩
    · omega
    · constructor
      · rw [hn.pid i hi]
        split <;> omega
      · intro j hj hp
        exact hn.pid_inj hi hj hp
  · intro i hi call hcall
    obtain ⟨hiy, hpid⟩ := hslot hi
    rcases (hx.trans hy).indexed.1 with ⟨-, h0⟩ | ⟨-, hn⟩
    · omega
    · exact hn.target_eq hiy (hpid ▸ hcall)

/-- The first task creates a thread, and its own pid still leads to it. -/
theorem process_identity_sample : ∃ x y, Reachable x ∧ Reach step anyStep x y ∧
    x.kernel.numTasks = 1 ∧ y.kernel.numTasks = 2 ∧ y.kernel.findPid (x.kernel.tasks 0).pid =
    some 0 := by
  obtain ⟨x, h, f, y, r, use, fl, hk, ht, hstep, hy, hty, -⟩ := sample_cloned
  have hx : Reachable x := ⟨_, x, hk, .refl⟩
  have hrun : Reach step anyStep x y := .tail .refl trivial hstep
  have hn : x.kernel.numTasks = 1 := congrArg TaskTable.num ht
  have hny : y.kernel.numTasks = 2 := congrArg TaskTable.num (Option.some.inj hty).symm
  refine ⟨x, y, hx, hrun, hn, hny, ?_⟩
  obtain ⟨-, -, -, hfind⟩ := process_identity hx hrun
  rcases hfind 0 (by omega) (.wait (x.kernel.tasks 0).pid) rfl with hw | ⟨hnone, hex⟩
  · exact hw
  · have hrunning : (y.kernel.tasks 0).state = .ready :=
      congrArg (fun t => TaskTable.state t 0) (Option.some.inj hty).symm
    rw [hrunning] at hex
    cases hex

/-- Number of tasks that have not exited. -/
def Kernel.liveTasks (s : Kernel) : ℕ := (List.range s.numTasks).countP s.live

theorem toInt_of_lt {n : ℕ} (h : n < 2 ^ 31) : toInt n = n := by
  apply Int.bmod_eq_of_le <;> omega

/-- What `clone` returns when a page is free. -/
private theorem sysClone_fst {s : Kernel} {c : ℕ} (hc : s.currentTask = some c)
    (hpage : s.machine.freeStack ≠ 0) (flags userStack entry arg : ℕ) :
    (sysClone s flags userStack entry arg).1 =
      if maxTasks ≤ s.numTasks then -1 else toInt s.nextPid := by
  simp only [sysClone, hc, pmmAllocPage_taken rfl hpage, if_neg hpage, apply_ite Prod.fst]

/-- With a free page, `clone` returns a pid exactly while some slot has never been used, however
many tasks are live: the slots of exited tasks stay taken. -/
theorem clone_returns_pid_iff {x : System} {c : ℕ} (hx : Reachable x) (hp : x.phase ≠ .stopped)
    (hc : x.kernel.currentTask = some c) (hpage : x.kernel.machine.freeStack ≠ 0)
    (flags userStack entry arg : ℕ) :
    (∃ pid : ℕ, pid ≠ 0 ∧ (sysClone x.kernel flags userStack entry arg).1 = pid) ↔
      x.kernel.numTasks < maxTasks := by
  obtain ⟨-, hn⟩ := hx.scheduled hp hc
  have hmax : maxTasks = 64 := rfl
  have hle := hn.le
  have hnext := hn.next
  rw [sysClone_fst hc hpage, toInt_of_lt (by omega)]
  constructor
  · rintro ⟨pid, -, hpid⟩
    by_contra hfull
    rw [if_pos (Nat.not_lt.mp hfull)] at hpid
    omega
  · intro hroom
    exact ⟨x.kernel.nextPid, by omega, if_neg (Nat.not_le.mpr hroom)⟩

/-- The first task of the sample boot may create a thread. -/
theorem clone_returns_pid_iff_sample : ∃ x c, Reachable x ∧ x.phase ≠ .stopped ∧
    x.kernel.currentTask = some c ∧ x.kernel.liveTasks < maxTasks ∧
    x.kernel.machine.freeStack ≠ 0 ∧
    ∃ pid : ℕ, pid ≠ 0 ∧ (sysClone x.kernel 0 0 0 0).1 = pid := by
  obtain ⟨x, r, use, fl, hk, hp, ht, hs, -, hlen⟩ := sample_started
  have hx : Reachable x := ⟨_, x, hk, .refl⟩
  have hp : x.phase ≠ .stopped := by
    rw [hp]
    exact fun h => by cases h
  have hc : x.kernel.currentTask = some 0 := congrArg TaskTable.current ht
  have hn : x.kernel.numTasks = 1 := congrArg TaskTable.num ht
  have hlive : x.kernel.liveTasks < maxTasks := by
    have hle : x.kernel.liveTasks ≤ (List.range x.kernel.numTasks).length := List.countP_le_length
    rw [List.length_range, hn] at hle
    exact hle.trans_lt (by decide)
  have hpage : x.kernel.machine.freeStack ≠ 0 := by
    rw [Ne, hs.owned.freeStack_eq_zero_iff]
    rintro rfl
    exact absurd hlen (by decide)
  have hroom : x.kernel.numTasks < maxTasks := by
    rw [hn]
    decide
  exact ⟨x, 0, hx, hp, hc, hlive, hpage,
    (clone_returns_pid_iff hx hp hc hpage 0 0 0 0).mpr hroom⟩

section FullTable

private theorem next_of_ready {t : TaskTable} {c : ℕ} (hc : c + 1 < t.num)
    (hready : t.state (c + 1) = .ready) : t.next c = c + 1 := by
  obtain ⟨n, hn⟩ : ∃ n, t.num = n + 2 := ⟨t.num - 2, by omega⟩
  have hmod : (c + 1) % (n + 2) = c + 1 := Nat.mod_eq_of_lt (hn ▸ hc)
  simp [TaskTable.next, hn, List.range_succ_eq_map, hmod, hready]

private theorem reschedule_next {t : TaskTable} {c : ℕ} (hc : c + 1 < t.num)
    (hready : t.state (c + 1) = .ready) : (t.reschedule c).current = some (c + 1) ∧
    ∀ j ≤ c, t.state j = .ready ∨ j = c ∧ t.state c = .running → (t.reschedule c).state j =
    .ready := by
  unfold TaskTable.reschedule
  by_cases hrun : t.state c ≠ .blocked ∧ t.state c ≠ .exited
  · have hnext : (t.setState c .ready).next c = c + 1 :=
      next_of_ready hc (by simp [TaskTable.setState, hready])
    simp only [if_pos hrun, hnext, true_and]
    rintro j hj (hst | ⟨rfl, -⟩)
    · simp [TaskTable.setState, hst, show j ≠ c + 1 by omega]
    · simp [TaskTable.setState]
  · have hnext : t.next c = c + 1 := next_of_ready hc hready
    simp only [if_neg hrun, hnext, true_and]
    rintro j hj (hst | ⟨-, hst⟩)
    · simp [TaskTable.setState, hst, show j ≠ c + 1 by omega]
    · simp [hst] at hrun

/-- When the newest thread clones, its child is the first ready slot after it and runs. The first
task waits for its turn. -/
private theorem clone_runs_child {t t' : TaskTable} {n flags userStack entry arg : ℕ}
    (hc : t.current = some n) (hn : t.num = n + 1)
    (h0 : t.state 0 = if n = 0 then .running else .ready)
    (h : t.step (.clone flags userStack entry arg) = some t') :
    t'.current = some (n + 1) ∧ t'.state 0 = .ready := by
  rw [TaskTable.step, hc, Option.bind_some] at h
  obtain ⟨u, hu, h⟩ := Option.bind_eq_some_iff.mp h
  obtain ⟨hnum, hchild, hfirst⟩ : u.num = n + 2 ∧ u.state (n + 1) = .ready ∧
      u.state 0 = t.state 0 := by
    simp only [TaskTable.call] at hu
    split at hu
    · cases hu
    · obtain rfl := Option.some.inj hu
      simp [hn]
  rw [if_pos (by omega)] at h
  obtain rfl := Option.some.inj h
  obtain ⟨hcur, hst⟩ := reschedule_next (by omega) hchild
  refine ⟨hcur, hst 0 (Nat.zero_le n) ?_⟩
  rw [hfirst, h0]
  by_cases hz : n = 0
  · subst hz
    exact .inr ⟨rfl, hfirst.trans h0⟩
  · exact .inl (if_neg hz)

/-- A boot with room for a thread in every slot. -/
def wideMap : List E820Entry := [⟨0x110000, 0x80000, 1⟩]

theorem wideMap_good : GoodMap wideMap where
  bounded := by decide
  disjoint := List.pairwise_singleton _ _

/-- Threads that each create the next one fill the table. -/
private theorem threads_fill_table {n : ℕ} (hn : n + 1 ≤ maxTasks) : ∃ x r use fl, Reachable x ∧
    x.phase = .user r ∧ Safe use fl x.kernel ∧ x.kernel.currentTask = some n ∧
    x.kernel.numTasks = n + 1 ∧ 103 - n ≤ fl.length ∧
    (x.kernel.tasks 0).state = (if n = 0 then .running else .ready) ∧
    (n ≠ 0 → (x.kernel.tasks n).stackPhys ≠ 0 ∧ (x.kernel.tasks n).codePages = 0) := by
  induction n with
  | zero =>
    have hb : Bootable (sampleConfig wideMap) 1 := sampleConfig_bootable wideMap_good
      (by decide +kernel)
    obtain ⟨x, r, use, fl, hk, hp, ht, hs, -, hlen, -⟩ := hb.starts
    have hall : (usablePages (sampleConfig wideMap).kernelEnd (sampleConfig wideMap).e820).length =
        128 := by decide +kernel
    exact ⟨x, r, use, fl, ⟨_, x, hk, .refl⟩, hp, hs, congrArg TaskTable.current ht,
      congrArg TaskTable.num ht, by omega, congrArg (·.state 0) ht, fun h => absurd rfl h⟩
  | succ n ih =>
    obtain ⟨x, r, use, fl, hx, hp, hs, hc, hnum, hlen, h0, -⟩ := ih (by omega)
    have hmax : maxTasks = 64 := rfl
    cases fl with
    | nil =>
      rw [List.length_nil] at hlen
      omega
    | cons f fl =>
      obtain ⟨h, y, r1, use', hstep, hy, hty, hsy, hsame⟩ := step_clone quietPorts
        (.call 21 0 0 0 0) hs hc (by omega) hp (by omega) rfl rfl
      have hnumy : y.kernel.numTasks = n + 2 := by
        rw [hsame.numTasks]
        exact congrArg (· + 1) hnum
      obtain ⟨hcy, h0y⟩ := clone_runs_child hc hnum h0 hty
      have hleny : 103 - (n + 1) ≤ fl.length := by
        rw [List.length_cons] at hlen
        omega
      refine ⟨y, r1, use', fl, hx.trans (.tail .refl trivial hstep), hy, hsy, hcy, hnumy, hleny,
        h0y, fun _ => ?_⟩
      obtain ⟨st, rsp, he⟩ := hsame.tasks (n + 1)
      rw [he]
      simpa [addTask, hnum, newTask, ipcInitTask] using hs.owned.head.2.2.1.ne'

/-- An exited task's slot makes the number of live tasks smaller than the number of slots. -/
private theorem liveTasks_lt {s : Kernel} {i : ℕ} (hi : i < s.numTasks)
    (hdead : (s.tasks i).state = .exited) : s.liveTasks < s.numTasks := by
  have hle : s.liveTasks ≤ (List.range s.numTasks).length := List.countP_le_length
  rw [List.length_range] at hle
  apply lt_of_le_of_ne hle
  intro heq
  have hall := List.countP_eq_length.mp (heq.trans List.length_range.symm) i (List.mem_range.mpr hi)
  simp [Kernel.live, hdead] at hall

/-- The table is full, the last thread has exited and pages are free: `clone` fails. -/
theorem exited_slot_not_reused : ∃ x c, Reachable x ∧ x.phase ≠ .stopped ∧
    x.kernel.currentTask = some c ∧ x.kernel.liveTasks < maxTasks ∧
    x.kernel.machine.freeStack ≠ 0 ∧ (sysClone x.kernel 0 0 0 0).1 = -1 := by
  obtain ⟨x, r, use, fl, hx, hp, hs, hc, hn, hlen, h0, hthread⟩ :=
    threads_fill_table (n := 63) le_rfl
  obtain ⟨hstack, hcode⟩ := hthread (by decide)
  have hex := sysExit_eq hc
  have hpage : (sysExit x.kernel).machine.freeStack ≠ 0 := by
    rw [hex]
    simp only [freeUserMemory_thread (.inr hcode), freeStackPage, if_pos hstack]
    exact hstack
  have hnum : (sysExit x.kernel).numTasks = 64 := by
    rw [hex]
    exact hn
  have hcur : (sysExit x.kernel).currentTask = some 63 := by
    rw [hex]
    exact hc
  have hdead : ((sysExit x.kernel).tasks 63).state = .exited := by
    rw [hex]
    simp only [exitTasks, if_true]
  have hready : ((sysExit x.kernel).tasks 0).state = .ready := by
    rw [hex]
    simp [exitTasks, h0]
  have hcall : syscallHandler x.kernel quietPorts (Registers.call 0 0 0 0 0).syscall =
      some (.done 0 (sysExit x.kernel)) := rfl
  have hstep := step_syscall hp rfl hcall
  generalize sysExit x.kernel = k at hstep hpage hnum hcur hdead hready
  rw [afterSyscall_eq (by omega) hcur] at hstep
  generalize ({ Registers.call 0 0 0 0 0 with rax := .ofNat 0 } : Registers) = r1 at hstep
  have hst (j : ℕ) : ((yieldCaller k 63 r1).tasks j).state = (k.tasks j).state := by
    rw [yieldCaller_state, if_neg]
    rintro ⟨-, hrun⟩
    exact hrun.2 hdead
  have hnumy : (yieldCaller k 63 r1).numTasks = 64 :=
    (yieldCaller_sameTable k 63 r1).numTasks.trans hnum
  have hd : nextTask (yieldCaller k 63 r1) 63 ≠ 63 := by
    rcases nextTask_spec (s := yieldCaller k 63 r1) (c := 63) (by omega) (by omega) with h | ⟨-, h⟩
    · exact h.2.1
    · exact absurd ((hst 0).trans hready) (h 0 (by omega) (by decide))
  generalize nextTask (yieldCaller k 63 r1) 63 = d at hstep hd
  have hy := hx.trans (.tail .refl trivial hstep)
  have hky : (dispatch (yieldCaller k 63 r1) d).system.kernel =
    dispatched (yieldCaller k 63 r1) d :=
    dispatch_kernel ..
  have hpagey : (dispatched (yieldCaller k 63 r1) d).machine.freeStack ≠ 0 := by
    rw [dispatched_freeStack, yieldCaller_machine]
    exact hpage
  have hnumd : (dispatched (yieldCaller k 63 r1) d).numTasks = 64 := hnumy
  have hdeady : ((dispatched (yieldCaller k 63 r1) d).tasks 63).state = .exited := by
    simp only [dispatched, Kernel.setState_apply, if_neg hd.symm]
    exact (hst 63).trans hdead
  refine ⟨_, d, hy, ?_, ?_⟩
  · rw [dispatch_eq]
    exact fun h => by cases h
  · rw [hky]
    refine ⟨rfl, ?_, hpagey, ?_⟩
    · exact (liveTasks_lt (by omega) hdeady).trans_le hnumd.le
    · rw [sysClone_fst rfl hpagey, hnumd]
      rfl

end FullTable

end Mukrn
