import Mukrn.Memory.KernelMap

/-! Trap frames. A frame is saved in the stack page of the task that trapped, and when that task
is resumed the frame read back is the one it trapped with. -/
namespace Mukrn
open ByteMemory LinkedStack Runs

/-- The kernel and the slot with which the end of a system call enters `save_frame`. -/
def callSave : SysOutcome → Option (Kernel × ℕ)
  | .done _ s => if 1 < s.numTasks then s.currentTask.map fun c => (s, c) else none
  | _ => none

/-- The kernel and the slot with which a trap enters `save_frame`; `none` when it does not. -/
def saveMoment (x : System) (i : Input) : Option (Kernel × ℕ) :=
  match x.phase, i with
  | .user _, .trap _ r =>
    match i.request with
    | .irq io n =>
      let s := irqEffect x.kernel io n
      if n = 32 ∧ 1 < s.numTasks ∧ r.fromUser then s.currentTask.map fun c => (s, c) else none
    | .call io call => (syscallHandler x.kernel io call).bind callSave
    | _ => none
  | .asleep _ start target, .irq io n =>
    if 32 ≤ n ∧ n ≤ 47 then callSave (sleepLoop (irqEffect x.kernel io n) start target) else none
  | _, _ => none

theorem callSave_spec {o : SysOutcome} {k : Kernel} {c : ℕ} (h : callSave o = some (k, c)) :
    o.kernel = k ∧ k.currentTask = some c := by
  cases o with
  | done rax s =>
    simp only [callSave] at h
    split at h
    · obtain ⟨d, hd, he⟩ := Option.map_eq_some_iff.mp h
      obtain ⟨rfl, rfl⟩ := Prod.mk.inj he
      exact ⟨rfl, hd⟩
    · cases h
  | _ => cases h

/-- A frame is saved in the kernel that the trap's own work has led to. -/
theorem saveMoment_serve {x : System} {i : Input} {k : Kernel} {c : ℕ}
    (h : saveMoment x i = some (k, c)) :
    serve x i = some k ∧ k.currentTask = some c ∧ i.request ≠ .fault := by
  obtain ⟨s, p⟩ := x
  cases p with
  | stopped => cases i <;> cases h
  | asleep r start target =>
    cases i with
    | trap io r => cases h
    | store virt b => cases h
    | irq io n =>
      simp only [saveMoment] at h
      split at h
      next hn =>
        obtain ⟨hk, hc⟩ := callSave_spec h
        exact ⟨by simp only [serve, if_pos hn, hk], hc, fun h => by cases h⟩
      · cases h
  | user r0 =>
    cases i with
    | irq io n => cases h
    | store virt b => cases h
    | trap io r =>
      simp only [saveMoment] at h
      simp only [serve]
      split at h
      next io' n hq =>
        split at h
        · obtain ⟨d, hd, he⟩ := Option.map_eq_some_iff.mp h
          obtain ⟨rfl, rfl⟩ := Prod.mk.inj he
          exact ⟨by rw [hq]; rfl, hd, by simp [hq]⟩
        · cases h
      next io' call hq =>
        obtain ⟨o, ho, h⟩ := Option.bind_eq_some_iff.mp h
        obtain ⟨hk, hc⟩ := callSave_spec h
        refine ⟨?_, hc, by simp [hq]⟩
        rw [hq, work, ho, Option.map_some, hk]
      · cases h

/-- Every live task and the current one have a kernel stack. -/
def Stacked (s : Kernel) : Prop :=
  ∀ i < s.numTasks, s.live i ∨ s.currentTask = some i → (s.tasks i).stackPhys ≠ 0

section Stacked

variable {s k : Kernel} {c : ℕ}

theorem Stacked.keepsSlots (h : Stacked s) (hk : KeepsSlots s k) : Stacked k := by
  intro i hi hl
  have hi : i < s.numTasks := hk.numTasks ▸ hi
  rw [hk.stackPhys]
  exact h i hi (hk.alive i hi hl)

theorem Stacked.spawned (h : Stacked s) (hs : Spawned s k) : Stacked k := by
  obtain ⟨m, kstack, pml4, loadAddr, codePages, rfl, -, -, hk, -⟩ := hs
  intro i hi hl
  by_cases he : i = s.numTasks
  · simpa [addTask, he, newTask, ipcInitTask] using hk
  · have hi : i < s.numTasks := Nat.lt_of_le_of_ne (Nat.le_of_lt_succ hi) he
    simp only [addTask, Kernel.live, Option.getD_none, Kernel.setTask_apply, if_neg he] at hl ⊢
    exact h i hi hl

/-- A call other than `exit` moves no stack page between slots, or it adds a task. -/
theorem CallEffect.keepsSlots {call : Syscall} {o : SysOutcome} (he : CallEffect s c call o)
    (hc : s.currentTask = some c) (hx : call ≠ .exit) :
    KeepsSlots s o.kernel ∨ Spawned s o.kernel := by
  have hframe {k : Kernel} (hn : k.numTasks = s.numTasks) (ht : k.tasks = s.tasks)
      (hcur : k.currentTask = s.currentTask) : KeepsSlots s k :=
    ⟨hn, fun _ => by rw [ht], fun _ => by rw [ht], fun _ _ hl => by
      simpa only [Kernel.live, ht, hcur] using hl⟩
  cases he with
  | quiet h =>
    obtain ⟨m, b, rfl, -⟩ := h
    exact .inl (hframe rfl rfl rfl)
  | exit => exact absurd rfl hx
  | send hi _ _ =>
    exact .inl (.enqueue (by simpa [Kernel.live] using (Kernel.findLive_spec hi).2.2))
  | @recv msg rax m hq hw =>
    have h1 : KeepsSlots s { s with machine := m } := hframe rfl rfl rfl
    exact .inl (h1.trans (.setTask rfl rfl (.inr (.inr hc))))
  | @wait pid i rax hi hl =>
    have h1 : KeepsSlots s (s.setTask i { s.tasks i with waitIdx := some c }) :=
      .setTask rfl rfl (.inr (.inl (by simpa [Kernel.live] using hl)))
    exact .inl (h1.trans (.setState .blocked (.inr hc)))
  | waitAny _ =>
    have htask (j : ℕ) : waitAnyTasks s c j = s.tasks j ∨
        waitAnyTasks s c j = { s.tasks j with waitIdx := some c } := by
      unfold waitAnyTasks
      split
      · exact .inr rfl
      · exact .inl rfl
    have h1 : KeepsSlots s { s with tasks := waitAnyTasks s c } := by
      refine ⟨rfl, fun j => ?_, fun j => ?_, fun j _ hl => hl.imp_left fun hl => ?_⟩
      · rcases htask j with h | h <;> simp only [h]
      · rcases htask j with h | h <;> simp only [h]
      · rcases htask j with h | h <;> simpa only [Kernel.live, h] using hl
    exact .inl (h1.trans (.setState .blocked (.inr hc)))
  | irqRegister _ => exact .inl (hframe rfl rfl rfl)
  | @kill pid i rax m hi hr =>
    have hl : s.live i := by simpa [Kernel.live] using (Kernel.findLive_spec hi).2.2
    have h1 := KeepsSlots.setState .exited (.inl hl : s.live i ∨ s.currentTask = some i)
    exact .inl ⟨h1.numTasks, h1.stackPhys, h1.pml4Phys, h1.alive⟩
  | clone h => exact .inr h
  | spawnAt h => exact .inr h
  | @futexWait uaddr val rax hl =>
    have h1 : KeepsSlots s { s with futexWaiters := s.futexWaiters ++ [FutexWaiter.mk uaddr c] } :=
      hframe rfl rfl rfl
    exact .inl (h1.trans (.setState .blocked (.inr hc)))
  | futexWake h => exact .inl (.woken h)
  | nanosleep => exact .inl (KeepsSlots.sleepLoop hc _ _).1
  | shutdown => exact .inl (.refl s)

/-- The request is the `exit` call. -/
def Request.isExit : Request → Bool
  | .call _ .exit => true
  | _ => false

theorem Stacked.served {x : System} {q : Request} (h : Stacked x.kernel)
    (hc : x.kernel.currentTask = some c) (hq : q.isExit = false) (hf : q ≠ .fault)
    (hs : Served x q k) : Stacked k := by
  cases hs with
  | none => exact h
  | store _ => exact h.keepsSlots ⟨rfl, fun _ => rfl, fun _ => rfl, fun _ _ hl => hl⟩
  | fault => exact absurd rfl hf
  | irq => exact h.keepsSlots (KeepsSlots.irqEffect x.kernel _ _).1
  | @call io call o ho =>
    have hx : call ≠ .exit := by
      rintro rfl
      cases hq
    rcases (syscallHandler_effect hc ho).keepsSlots hc hx with hk | hk
    · exact h.keepsSlots hk
    · exact h.spawned hk
  | @asleep io n start target =>
    have hc' : (irqEffect x.kernel io n).currentTask = some c :=
      (irqEffect_currentTask x.kernel io n).trans hc
    exact h.keepsSlots ((KeepsSlots.irqEffect x.kernel io n).1.trans
      (KeepsSlots.sleepLoop hc' _ _).1)

theorem step_fault {x y : System} {i : Input} (hq : i.request = .fault) (h : step x i = some y) :
    y = (pageFaultKill x.kernel).system := by
  obtain ⟨s, p⟩ := x
  cases i with
  | irq io n => cases hq
  | store virt b => cases hq
  | trap io r =>
    cases p with
    | user r0 =>
      simp only [Input.request] at hq
      split at hq
      next hn =>
        split at hq
        next h14 =>
          simp only [step, isrHandler, if_pos hn, if_pos h14, Option.map_some,
            Option.some.injEq] at h
          exact h.symm
        · cases hq
      · split at hq
        · cases hq
        · split at hq <;> cases hq
    | _ => cases h

/-- After a page fault another task runs, or none. -/
theorem Stacked.fault (h : Stacked s) (hsch : Scheduled s c) (hx : SoundExit s c) :
    (pageFaultKill s).system.phase = .stopped ∨ Stacked (pageFaultKill s).system.kernel := by
  have hstate := sysExit_exited (s := s) (c := c)
    (by rw [sysExit_eq hsch.current]; exact hsch.current)
  unfold pageFaultKill
  dsimp only
  split
  next n hn =>
    right
    rw [dispatch_kernel]
    have hready : ((sysExit s).tasks n).state = .ready := by
      simpa [isReady] using List.find?_some hn
    have hnc : n ≠ c := by
      rintro rfl
      rw [hready] at hstate
      cases hstate
    intro j hj hl
    have hj : j < s.numTasks := by
      rw [sysExit_eq hsch.current] at hj
      exact hj
    have hlive : (sysExit s).live j := by
      by_cases hjn : j = n
      · simp [Kernel.live, hjn, hready]
      · rcases hl with hl | hl
        · simpa [dispatched, Kernel.live, hjn] using hl
        · exact absurd (Option.some.inj hl).symm hjn
    have hjc : j ≠ c := by
      rintro rfl
      simp [Kernel.live, hstate] at hlive
    have htask : (sysExit s).tasks j = { s.tasks j with
        state := if (s.tasks c).waitIdx = some j then .ready else (s.tasks j).state } := by
      rw [sysExit_eq hsch.current]
      exact if_neg hjc
    have hstack : ((dispatched (sysExit s) n).tasks j).stackPhys = (s.tasks j).stackPhys := by
      simp only [dispatched, Kernel.setState_apply, htask]
    rw [hstack]
    refine h j hj (.inl ?_)
    by_cases hw : (s.tasks c).waitIdx = some j
    · exact hx.2 j hj hw
    · simpa only [Kernel.live, htask, if_neg hw] using hlive
  · exact .inl rfl

/-- A step that is no `exit` call leaves every task with a stack, unless the kernel halts. -/
theorem Stacked.step {x y : System} {i : Input} (h : Stacked x.kernel)
    (hsch : Scheduled x.kernel c) (hs : Sound x i) (hx : i.request.isExit = false)
    (hy : Mukrn.step x i = some y) : y.phase = .stopped ∨ Stacked y.kernel := by
  by_cases hf : i.request = .fault
  · rw [step_fault hf hy]
    have hsound := hs c hsch.current
    rw [hf] at hsound
    exact h.fault hsch hsound
  · obtain ⟨k, hk, hfin⟩ := step_finish hy
    exact .inr ((h.served hsch.current hx hf (serve_cases hk)).keepsSlots hfin.keepsSlots)

end Stacked

theorem kmain_stacked {cfg : BootConfig} {x : System} (hk : kmain cfg = some x) :
    Stacked x.kernel := by
  obtain ⟨res, hres, rfl⟩ := Option.map_eq_some_iff.mp hk
  have hc := taskCreate_creation hres
  intro i hi _
  have hn : (schedulerStart res.2).kernel.numTasks = res.2.numTasks := by
    unfold schedulerStart
    split <;> rfl
  have hstack : ((schedulerStart res.2).kernel.tasks i).stackPhys = (res.2.tasks i).stackPhys := by
    unfold schedulerStart
    split
    · rfl
    · simp only [Kernel.setState_apply]
  rw [hn] at hi
  have hi0 : i = 0 := by
    have hle := hc.numTasks_le
    omega
  rw [hstack, hi0]
  exact (hc.pages (by omega)).1

/-- A sound step that spares the kernel's pages and is no `exit` call. -/
def SoundNoExit (cfg : BootConfig) (own : ℕ → Prop) (x : System) (i : Input) : Prop :=
  SoundSparing cfg own x i ∧ i.request.isExit = false

theorem saveMoment_stopped {x : System} (hp : x.phase = .stopped) (i : Input) :
    saveMoment x i = none := by
  simp only [saveMoment, hp]

/-- Along such runs every task has a stack until the kernel halts. -/
theorem reach_stacked {cfg : BootConfig} {own : ℕ → Prop} {x0 x : System}
    (hk : kmain cfg = some x0) (hx : Reach step (SoundNoExit cfg own) x0 x) :
    x.phase = .stopped ∨ ∃ c, Scheduled x.kernel c ∧ Stacked x.kernel := by
  have hinv := hx.invariant (P := fun z => HaltedOrNumbered z ∧
    (z.phase = .stopped ∨ Stacked z.kernel)) ⟨kmain_cases hk, .inr (kmain_stacked hk)⟩ ?_
  · rcases hinv with ⟨⟨hp, -⟩ | ⟨⟨c, hc⟩, -⟩, hp | hs⟩
    · exact .inl hp
    · exact .inl hp
    · exact .inl hp
    · exact .inr ⟨c, hc, hs⟩
  · rintro x i y ⟨hn, hst⟩ hok hstep
    refine ⟨hn.step hstep, ?_⟩
    rcases hn with ⟨hp, -⟩ | ⟨⟨c, hc⟩, -⟩
    · rw [step_stopped hp] at hstep
      cases hstep
    · rcases hst with hp | hst
      · rw [step_stopped hp] at hstep
        cases hstep
      · exact hst.step hc hok.1.1 hok.2 hstep

/-- In runs of sound steps without `exit` calls that spare the kernel's pages, a frame is saved in
the stack page of the current task: the page is not free, and it is no other live task's stack. The
kernel's pages are mapped to themselves when the trap comes. -/
theorem save_into_own_stack {cfg : BootConfig} {own : ℕ → Prop} {x0 x : System} {i : Input}
    {k : Kernel} {c : ℕ} (hg : GoodBoot cfg) (hk : kmain cfg = some x0) (hb : SparingBoot cfg own)
    (hx : Reach step (SoundNoExit cfg own) x0 x) (hi : SoundNoExit cfg own x i)
    (hm : saveMoment x i = some (k, c)) :
    (k.tasks c).stackPhys ≠ 0 ∧
      (∃ fl, Chain (load64 k.machine.mem) 0 k.machine.freeStack fl ∧ (k.tasks c).stackPhys ∉ fl) ∧
      (∀ j < k.numTasks, j ≠ c → k.live j → (k.tasks j).stackPhys ≠ (k.tasks c).stackPhys) ∧
      ∀ j < x.kernel.numTasks,
        KernelMapped cfg own x.kernel.machine.mem (x.kernel.tasks j).pml4Phys := by
  obtain ⟨use, fl, hsafe⟩ := reach_safe hg hk (fun _ _ h => h.1.1) hx
  rcases reach_stacked hk hx with hp | ⟨d, hsch, hst⟩
  · rw [saveMoment_stopped hp] at hm
    cases hm
  obtain ⟨hserve, hc, hf⟩ := saveMoment_serve hm
  have hserved := serve_cases hserve
  have hstk := hst.served hsch.current hi.2 hf hserved
  have hck := (hsch.served hserved)
  obtain rfl := Option.some.inj (hck.current.symm.trans hc)
  obtain ⟨use', fl', hs', -⟩ := hsafe.served hsch.current hsch.lt (hi.1.1 d hsch.current) hserved
  have h0 := hstk d hck.lt (.inr hc)
  have hu := (hs'.stack d hck.lt (.inr hc)).resolve_left h0
  refine ⟨h0, ⟨fl', hs'.owned.chain, fun hmem => ?_⟩, fun j hj hjd hlj he => ?_,
    reach_kernelMapped hg hk hb (fun _ _ h => h.1) hx⟩
  · rw [(hs'.owned.free _).mp hmem] at hu
    cases hu
  · have huj := (hs'.stack j hj (.inl hlj)).resolve_left (hstk j hj (.inl hlj))
    rw [he, hu] at huj
    exact hjd (Use.stack.inj huj).symm

theorem save_into_own_stack_sample : ∃ x0 x i k c, kmain (sampleConfig sampleMap) = some x0 ∧
    Reach step (SoundNoExit (sampleConfig sampleMap) samplePages) x0 x ∧
    SoundNoExit (sampleConfig sampleMap) samplePages x i ∧ saveMoment x i = some (k, c) ∧
    (k.tasks c).stackPhys ≠ 0 := by
  obtain ⟨x, h, f, y, r, use, fl, hk, -, hstep, hy, hty, -⟩ := sample_cloned
  have hty := (Option.some.inj hty).symm
  have hc : y.kernel.currentTask = some 1 := congrArg TaskTable.current hty
  have hn : y.kernel.numTasks = 2 := congrArg TaskTable.num hty
  have hok : SoundNoExit (sampleConfig sampleMap) samplePages x
      (.trap quietPorts (.call 21 0 0 0 0)) :=
    ⟨⟨fun _ _ => trivial, sparing_clone (sample_first hk)⟩, rfl⟩
  have hi : SoundNoExit (sampleConfig sampleMap) samplePages y
      (.trap quietPorts (.call 27 0 0 0 0)) :=
    ⟨⟨fun _ _ => trivial, fun _ _ => ⟨fun va _ => not_touchedBy_nil va, fun _ h => by cases h⟩⟩,
      rfl⟩
  have hrun := Reach.tail .refl hok hstep
  have hreq : (Input.trap quietPorts (.call 27 0 0 0 0)).request = .call quietPorts .yield := rfl
  have hcall : syscallHandler y.kernel quietPorts .yield = some (.done 0 y.kernel) := rfl
  have hm : saveMoment y (.trap quietPorts (.call 27 0 0 0 0)) = some (y.kernel, 1) := by
    simp only [saveMoment, hy, hreq, hcall, Option.bind_some, callSave]
    simp [hn, hc]
  have hown := save_into_own_stack sample_bootable.goodBoot hk sample_sparingBoot hrun hi hm
  exact ⟨x, y, _, _, _, hk, hrun, hi, hm, hown.1⟩

/-- A thread exits: its frame is saved at address 0. -/
theorem exit_saves_at_zero : ∃ x i k c, Reachable x ∧ saveMoment x i = some (k, c) ∧
    (k.tasks c).stackPhys = 0 := by
  obtain ⟨x, h, f, y, r, use, fl, hk, -, hstep, hy, hty, -⟩ := sample_cloned
  have hty := (Option.some.inj hty).symm
  have hc : y.kernel.currentTask = some 1 := congrArg TaskTable.current hty
  have hn : y.kernel.numTasks = 2 := congrArg TaskTable.num hty
  have hreq : (Input.trap quietPorts (.call 0 0 0 0 0)).request = .call quietPorts .exit := rfl
  have hcall : syscallHandler y.kernel quietPorts .exit = some (.done 0 (sysExit y.kernel)) := rfl
  refine ⟨y, .trap quietPorts (.call 0 0 0 0 0), sysExit y.kernel, 1,
    ⟨_, x, hk, .tail .refl trivial hstep⟩, ?_, ?_⟩
  · simp only [saveMoment, hy, hreq, hcall, Option.bind_some, callSave]
    rw [sysExit_eq hc]
    simp [hn, hc]
  · rw [sysExit_eq hc]
    simp only [exitTasks, if_true]

end Mukrn
