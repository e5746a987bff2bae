import Mukrn.Memory.Frames

/-! Context switches. A record beside the run keeps, for each slot, the frame with which its task
has to be resumed: the one it trapped with, or the first frame of a new thread. -/
namespace Mukrn
open ByteMemory LinkedStack Runs

section Frame

variable {m m' : Mem} {a : ℕ}

private theorem ofWords_congr {w w' : ℕ → UInt64} (h : ∀ i < 22, w i = w' i) :
    Registers.ofWords w = Registers.ofWords w' := by
  simp [Registers.ofWords, h]

/-- A frame lies within its page. -/
theorem loadFrame_congr (h : ∀ b, a ≤ b → b < a + 4096 → m' b = m b) :
    loadFrame m' a = loadFrame m a := by
  refine ofWords_congr fun i hi => ?_
  have hl : load64 m' (a + 8 * i) = load64 m (a + 8 * i) :=
    load_congr fun j hj => h _ (by omega) (by omega)
  rw [hl]

theorem loadFrame_storeFrame (m : Mem) (a : ℕ) (r : Registers) :
    loadFrame (storeFrame m a r) a = r := by
  have hword (i : ℕ) (hi : i < 22) :
      UInt64.ofNat (load64 (storeFrame m a r) (a + 8 * i)) = r.words.getD i 0 := by
    have hl : load64 (storeFrame m a r) (a + 8 * i) = (r.words.getD i 0).toNat % 2 ^ 64 :=
      load64_storeWords hi
    rw [hl, Nat.mod_eq_of_lt (UInt64.toNat_lt _), UInt64.ofNat_toNat]
  exact (ofWords_congr hword).trans r.ofWords_words

end Frame

/-- For each slot the frame its task has to be resumed with, if it is known. -/
abbrev Frames := ℕ → Option Registers

namespace Frames

def set (g : Frames) (i : ℕ) (r : Registers) : Frames := Function.update g i (some r)

/-- A system call that returns replaces `rax` by its result. -/
def returned (g : Frames) (c : ℕ) (r : Registers) : SysOutcome → Frames
  | .done rax _ => g.set c { r with rax := .ofNat rax }
  | _ => g

/-- A thread is to be started with the arguments of the clone that made it. -/
def created (g : Frames) (s k : Kernel) : Syscall → Frames
  | .clone _ userStack entry arg =>
    if s.numTasks < k.numTasks then g.set s.numTasks (.initial entry userStack arg) else g
  | _ => g

/-- What one step of the task in slot `c` adds. -/
def trapped (g : Frames) (x : System) (c : ℕ) (i : Input) : Frames :=
  match x.phase, i with
  | .user _, .trap _ r =>
    match i.request with
    | .call io call =>
      ((syscallHandler x.kernel io call).map fun o =>
        (g.created x.kernel o.kernel call).returned c r o).getD g
    | _ => g.set c r
  | .asleep r start target, .irq io n =>
    g.returned c r (sleepLoop (irqEffect x.kernel io n) start target)
  | _, _ => g

def record (x : System) (i : Input) (_ : System) (g : Frames) : Frames :=
  (x.kernel.currentTask.map fun c => g.trapped x c i).getD g

end Frames

/-- Slot `i` is in use by a task that has not ended, or it is the current one. -/
def Kernel.alive (s : Kernel) (i : ℕ) : Prop := s.live i ∨ s.currentTask = some i

/-- The stack pages of the tasks are distinct pages that are not on the free list, and no page is
on it twice. -/
structure Separated (s : Kernel) (fl : List ℕ) : Prop where
  chain : Chain (load64 s.machine.mem) 0 s.machine.freeStack fl
  nodup : fl.Nodup
  page : ∀ f ∈ fl, f % 4096 = 0
  stack : ∀ i < s.numTasks, s.alive i → (s.tasks i).stackPhys % 4096 = 0
  distinct : ∀ i < s.numTasks, ∀ j < s.numTasks, s.alive i → s.alive j →
    (s.tasks i).stackPhys = (s.tasks j).stackPhys → i = j
  apart : ∀ i < s.numTasks, s.alive i → (s.tasks i).stackPhys ∉ fl

/-- Slot `c` is current, and every other task has the frame recorded for it in its stack page. -/
structure Parked (s : Kernel) (c : ℕ) (fl : List ℕ) (g : Frames) : Prop where
  current : s.currentTask = some c
  lt : c < s.numTasks
  sep : Separated s fl
  saved : ∀ i < s.numTasks, i ≠ c → s.alive i → ∀ r, g i = some r →
    (s.tasks i).rsp = (s.tasks i).stackPhys ∧
      loadFrame s.machine.mem (s.tasks i).stackPhys = r

/-- Slots and saved stack pointers stay as they are, and no dead task is revived. -/
structure KeepsFrames (s k : Kernel) : Prop extends KeepsSlots s k where
  currentTask : k.currentTask = s.currentTask
  rsp : ∀ i, (k.tasks i).rsp = (s.tasks i).rsp

/-- A write that changes no stack page of a task. -/
def SparesStacks (s : Kernel) (m : Mem) : Prop :=
  ∀ i < s.numTasks, s.alive i → ∀ a, (s.tasks i).stackPhys ≤ a → a < (s.tasks i).stackPhys + 4096 →
    m a = s.machine.mem a

/-- A write that changes neither a stack page nor a free page. -/
def SparesPages (s : Kernel) (m : Mem) : Prop :=
  SparesStacks s m ∧ ∀ f, OnFreeList s.machine f → ∀ a, f ≤ a → a < f + 4096 → m a = s.machine.mem a

section Parked

variable {s k : Kernel} {c : ℕ} {fl : List ℕ} {g : Frames}

/-- Two different stack pages do not overlap. -/
private theorem Separated.other {i j : ℕ} (h : Separated s fl) (hi : i < s.numTasks)
    (hj : j < s.numTasks) (hli : s.alive i) (hlj : s.alive j) (hne : i ≠ j) {a : ℕ}
    (h1 : (s.tasks j).stackPhys ≤ a) (h2 : a < (s.tasks j).stackPhys + 4096) :
    a < (s.tasks i).stackPhys ∨ (s.tasks i).stackPhys + 4096 ≤ a := by
  have h1 := h.stack i hi hli
  have h2 := h.stack j hj hlj
  have h3 : (s.tasks i).stackPhys ≠ (s.tasks j).stackPhys := fun he =>
    hne (h.distinct i hi j hj hli hlj he)
  omega

theorem Separated.keeps {m : Mem} {top : ℕ} (h : Separated s fl) (hk : KeepsSlots s k)
    (hm : k.machine.mem = m) (hf : k.machine.freeStack = top)
    (hchain : Chain (load64 m) 0 top fl) : Separated k fl where
  chain := by rwa [hm, hf]
  nodup := h.nodup
  page := h.page
  stack i hi hl := by
    rw [hk.stackPhys]
    exact h.stack i (hk.numTasks ▸ hi) (hk.alive i (hk.numTasks ▸ hi) hl)
  distinct i hi j hj hli hlj he := by
    rw [hk.stackPhys, hk.stackPhys] at he
    exact h.distinct i (hk.numTasks ▸ hi) j (hk.numTasks ▸ hj) (hk.alive i (hk.numTasks ▸ hi) hli)
      (hk.alive j (hk.numTasks ▸ hj) hlj) he
  apart i hi hl := by
    rw [hk.stackPhys]
    exact h.apart i (hk.numTasks ▸ hi) (hk.alive i (hk.numTasks ▸ hi) hl)

theorem Parked.keeps (h : Parked s c fl g) (hk : KeepsFrames s k) (hm : k.machine = s.machine) :
    Parked k c fl g where
  current := hk.currentTask.trans h.current
  lt := hk.numTasks ▸ h.lt
  sep := h.sep.keeps hk.toKeepsSlots (by rw [hm]) (by rw [hm]) h.sep.chain
  saved i hi hic hl r hr := by
    rw [hk.rsp, hk.stackPhys, hm]
    exact h.saved i (hk.numTasks ▸ hi) hic (hk.alive i (hk.numTasks ▸ hi) hl) r hr

/-- The free list is not affected by a change outside its pages. -/
theorem Separated.chain_congr {m : Mem} (h : Separated s fl)
    (hm : ∀ f ∈ fl, ∀ a, f ≤ a → a < f + 4096 → m a = s.machine.mem a) :
    Chain (load64 m) 0 s.machine.freeStack fl :=
  h.chain.congr fun f hf => load_congr fun i hi => hm f hf _ (by omega) (by omega)

theorem Parked.write {h' : Machine} (h : Parked s c fl g) (hf : h'.freeStack = s.machine.freeStack)
    (hm : SparesPages s h'.mem) : Parked { s with machine := h' } c fl g where
  current := h.current
  lt := h.lt
  sep := h.sep.keeps ⟨rfl, fun _ => rfl, fun _ => rfl, fun _ _ hl => hl⟩ rfl hf
    (h.sep.chain_congr fun f hf => hm.2 f ⟨fl, h.sep.chain, hf⟩)
  saved i hi hic hl r hr := by
    obtain ⟨h1, h2⟩ := h.saved i hi hic hl r hr
    exact ⟨h1, (loadFrame_congr (hm.1 i hi hl)).trans h2⟩

/-- Saving the frame of the current task disturbs neither the free list nor another frame. -/
private theorem Parked.stored (h : Parked s c fl g) (r : Registers) :
    Chain (load64 (storeFrame s.machine.mem (s.tasks c).stackPhys r)) 0 s.machine.freeStack fl ∧
      ∀ i < s.numTasks, s.alive i → ∀ f, (g.set c r) i = some f →
        (i ≠ c → (s.tasks i).rsp = (s.tasks i).stackPhys) ∧
        loadFrame (storeFrame s.machine.mem (s.tasks c).stackPhys r) (s.tasks i).stackPhys = f := by
  have hc : s.alive c := .inr h.current
  have hout {a : ℕ} (ha : a < (s.tasks c).stackPhys ∨ (s.tasks c).stackPhys + 4096 ≤ a) :
      storeFrame s.machine.mem (s.tasks c).stackPhys r a = s.machine.mem a :=
    storeWords_outside (by omega)
  refine ⟨h.sep.chain_congr fun f hf a h1 h2 => hout ?_, fun i hi hl f hf => ?_⟩
  · have hp := h.sep.page f hf
    have hs := h.sep.stack c h.lt hc
    have hne : (s.tasks c).stackPhys ≠ f := fun he => h.sep.apart c h.lt hc (he ▸ hf)
    omega
  · by_cases hic : i = c
    · subst hic
      rw [Frames.set, Function.update_self] at hf
      obtain rfl := Option.some.inj hf
      exact ⟨fun hn => absurd rfl hn, loadFrame_storeFrame ..⟩
    · rw [Frames.set, Function.update_of_ne hic] at hf
      obtain ⟨h1, h2⟩ := h.saved i hi hic hl f hf
      refine ⟨fun _ => h1, (loadFrame_congr fun a ha ha' => hout ?_).trans h2⟩
      exact h.sep.other h.lt hi hc hl (Ne.symm hic) ha ha'

/-- The frame recorded for the current task plays no part while it runs. -/
theorem Parked.set (h : Parked s c fl g) (r : Registers) : Parked s c fl (g.set c r) where
  current := h.current
  lt := h.lt
  sep := h.sep
  saved i hi hic hl f hf := by
    rw [Frames.set, Function.update_of_ne hic] at hf
    exact h.saved i hi hic hl f hf

end Parked

/-- Between two traps: the frames of the other tasks are parked, and the one the current task was
resumed with is the one recorded. -/
def FrameInv (x : System) (g : Frames) : Prop :=
  ∃ c fl, Parked x.kernel c fl g ∧ ∀ r, x.phase = .user r → ∀ f, g c = some f → r = f

section Step

variable {s k : Kernel} {c : ℕ} {fl : List ℕ} {g : Frames}

theorem Parked.resume (h : Parked s c fl g) (r : Registers) :
    FrameInv ⟨s, .user r⟩ (g.set c r) := by
  refine ⟨c, fl, h.set r, fun r' hr' f hf => ?_⟩
  rw [Frames.set, Function.update_self] at hf
  exact (Phase.user.inj hr').symm.trans (Option.some.inj hf)

/-- A saved frame and a dispatch: `p` is the kernel between the two. -/
theorem Parked.switch {p : Kernel} {n : ℕ} (h : Parked s c fl g) (r : Registers)
    (hk : KeepsSlots s p) (hp : p.machine = (saveFrame s c r).machine)
    (hrsp : ∀ i, (p.tasks i).rsp = if i = c then (s.tasks c).stackPhys else (s.tasks i).rsp)
    (hn : n < p.numTasks) (hl : p.alive n) : FrameInv (dispatch p n).system (g.set c r) := by
  have hslots := hk.trans (.dispatched hl)
  have hmem : (dispatched p n).machine.mem =
      storeFrame s.machine.mem (s.tasks c).stackPhys r := by
    rw [dispatched_mem, hp]
    rfl
  have hfree : (dispatched p n).machine.freeStack = s.machine.freeStack := by
    rw [dispatched_freeStack, hp]
    rfl
  have htask (i : ℕ) : ((dispatched p n).tasks i).rsp = (p.tasks i).rsp := by
    simp only [dispatched, Kernel.setState_apply]
  obtain ⟨hchain, hstored⟩ := h.stored r
  have hback (i : ℕ) (hi : i < s.numTasks) (hli : s.alive i) (f : Registers)
      (hf : (g.set c r) i = some f) : (p.tasks i).rsp = (s.tasks i).stackPhys ∧
        loadFrame (storeFrame s.machine.mem (s.tasks c).stackPhys r) (s.tasks i).stackPhys = f := by
    obtain ⟨h1, h2⟩ := hstored i hi hli f hf
    refine ⟨?_, h2⟩
    rw [hrsp]
    by_cases hic : i = c
    · rw [if_pos hic, hic]
    · rw [if_neg hic, h1 hic]
  rw [dispatch_eq]
  refine ⟨n, fl, ⟨rfl, hn, h.sep.keeps hslots hmem hfree hchain, fun i hi hin hli f hf => ?_⟩,
    fun r' hr' f hf => ?_⟩
  · have hi : i < s.numTasks := hslots.numTasks ▸ hi
    obtain ⟨h1, h2⟩ := hback i hi (hslots.alive i hi hli) f hf
    change ((dispatched p n).tasks i).rsp = ((dispatched p n).tasks i).stackPhys ∧
      loadFrame (dispatched p n).machine.mem ((dispatched p n).tasks i).stackPhys = f
    rw [htask, hslots.stackPhys, hmem]
    exact ⟨h1, h2⟩
  · have hns : n < s.numTasks := hk.numTasks ▸ hn
    obtain ⟨h1, h2⟩ := hback n hns (hk.alive n hns hl) f hf
    obtain rfl := Phase.user.inj hr'
    rw [h1, ← h2, hp]
    rfl

theorem nextTask_alive {p : Kernel} (hc : p.currentTask = some c) : p.alive (nextTask p c) := by
  rcases nextTask_ready p c with h | h
  · exact .inr (hc.trans (congrArg some h.symm))
  · exact .inl (by simp [Kernel.live, h])

private theorem saveFrame_rsp (s : Kernel) (c : ℕ) (r : Registers) (i : ℕ) :
    ((saveFrame s c r).tasks i).rsp = if i = c then (s.tasks c).stackPhys else (s.tasks i).rsp := by
  simp only [saveFrame, Kernel.setTask_apply]
  split <;> rfl

private theorem yieldCaller_rsp (s : Kernel) (c : ℕ) (r : Registers) (i : ℕ) :
    ((yieldCaller s c r).tasks i).rsp =
      if i = c then (s.tasks c).stackPhys else (s.tasks i).rsp := by
  rw [← saveFrame_rsp s c r]
  unfold yieldCaller
  dsimp only
  split
  · simp only [Kernel.setState_apply]
  · rfl

theorem Parked.schedule (h : Parked s c fl g) (r : Registers) :
    FrameInv (schedule s c r).system (g.set c r) := by
  have hk : KeepsSlots s (preempt s c r) :=
    (KeepsSlots.saveFrame h.current r).trans (.setState .ready (.inr h.current))
  rw [show Mukrn.schedule s c r = dispatch (preempt s c r) (nextTask (preempt s c r) c) from
    dispatch_scheduleNext (preempt s c r) c]
  refine h.switch r hk rfl (fun i => ?_) (nextTask_lt (hk.numTasks ▸ h.lt))
    (nextTask_alive h.current)
  rw [← saveFrame_rsp s c r]
  simp only [preempt, Kernel.setState_apply]

theorem Parked.afterSyscall (h : Parked s c fl g) (r : Registers) :
    FrameInv (afterSyscall s r).system (g.set c r) := by
  by_cases hn : 1 < s.numTasks
  · obtain ⟨hk, hc⟩ := KeepsSlots.yieldCaller h.current r
    rw [afterSyscall_eq hn h.current]
    exact h.switch r hk (yieldCaller_machine s c r) (yieldCaller_rsp s c r)
      (nextTask_lt (hk.numTasks ▸ h.lt)) (nextTask_alive hc)
  · rw [Mukrn.afterSyscall, if_neg hn]
    exact h.resume r

/-- The end of a system call, of a sleep included. -/
theorem Parked.finishSyscall {o : SysOutcome} (h : Parked o.kernel c fl g) (r : Registers) :
    FrameInv (finishSyscall r o).system (g.returned c r o) := by
  cases o with
  | done rax k => exact h.afterSyscall { r with rax := .ofNat rax }
  | asleep k start target => exact ⟨c, fl, h, fun _ hr => nomatch hr⟩
  | stopped k => exact ⟨c, fl, h, fun _ hr => nomatch hr⟩

theorem KeepsFrames.irqEffect (s : Kernel) (io : Ports) (n : ℕ) :
    KeepsFrames s (irqEffect s io n) where
  toKeepsSlots := (KeepsSlots.irqEffect s io n).1
  currentTask := irqEffect_currentTask s io n
  rsp i := by
    unfold Mukrn.irqEffect keyboardIrq
    repeat' split
    all_goals simp only [Kernel.setTask_apply]
    split
    next h => rw [h]; rfl
    · rfl

/-- A call that creates no task and is not `exit` leaves the saved stack pointers alone. -/
theorem CallEffect.rsp {call : Syscall} {o : SysOutcome} (he : CallEffect s c call o)
    (hc : s.currentTask = some c) (hx : call ≠ .exit) :
    (o.kernel.currentTask = s.currentTask ∧ ∀ i, (o.kernel.tasks i).rsp = (s.tasks i).rsp) ∨
      Spawned s o.kernel := by
  have hset {k : Kernel} {j : ℕ} {t : Task} (hk : ∀ i, (k.tasks i).rsp = (s.tasks i).rsp)
      (ht : t.rsp = (s.tasks j).rsp) (i : ℕ) : ((k.setTask j t).tasks i).rsp = (s.tasks i).rsp := by
    rw [Kernel.setTask_apply]
    split
    next h => rw [h, ht]
    · exact hk i
  cases he with
  | quiet h =>
    obtain ⟨m, b, rfl, -⟩ := h
    exact .inl ⟨rfl, fun _ => rfl⟩
  | exit => exact absurd rfl hx
  | send _ _ _ => exact .inl ⟨rfl, hset (fun _ => rfl) rfl⟩
  | recv _ _ => exact .inl ⟨rfl, hset (fun _ => rfl) rfl⟩
  | wait _ _ =>
    refine .inl ⟨rfl, fun i => ?_⟩
    simp only [SysOutcome.kernel, Kernel.setState_apply]
    apply hset (fun _ => rfl)
    rfl
  | waitAny _ =>
    refine .inl ⟨rfl, fun i => ?_⟩
    simp only [SysOutcome.kernel, Kernel.setState_apply, waitAnyTasks]
    split <;> rfl
  | irqRegister _ => exact .inl ⟨rfl, fun _ => rfl⟩
  | kill _ _ => exact .inl ⟨rfl, fun i => by simp only [SysOutcome.kernel, Kernel.setState_apply]⟩
  | clone h => exact .inr h
  | spawnAt h => exact .inr h
  | futexWait _ =>
    exact .inl ⟨rfl, fun i => by simp only [SysOutcome.kernel, Kernel.setState_apply]⟩
  | futexWake h =>
    obtain ⟨st, l, rfl, -⟩ := h
    exact .inl ⟨rfl, fun _ => rfl⟩
  | nanosleep =>
    left
    unfold sysNanosleep sleepLoop
    split <;> simp only [SysOutcome.kernel, Kernel.setCurrentState_eq _ hc,
      Kernel.setState_apply] <;>
      exact ⟨rfl, fun _ => trivial⟩
  | shutdown => exact .inl ⟨rfl, fun _ => rfl⟩

/-- A call on the table alone keeps memory and saved stack pointers. -/
theorem KeepsFrames.tableCall {io : Ports} {call : Syscall} {o : SysOutcome}
    (hc : s.currentTask = some c) (ht : call.isTableCall) (ho : syscallHandler s io call = some o) :
    KeepsFrames s o.kernel ∧ o.kernel.machine = s.machine := by
  obtain ⟨hk, hm⟩ := KeepsSlots.tableCall hc ht ho
  have hx : call ≠ .exit := by
    rintro rfl
    cases ht
  rcases (syscallHandler_effect hc ho).rsp hc hx with ⟨hcur, hrsp⟩ | hspawn
  · exact ⟨⟨hk, hcur, hrsp⟩, hm⟩
  · obtain ⟨m, kstack, pml4, loadAddr, codePages, he, -⟩ := hspawn
    have hn : o.kernel.numTasks = s.numTasks + 1 := by
      rw [he]
      rfl
    have hn' := hk.numTasks
    omega

/-- A clone changes nothing, or it puts a thread's first frame into the first free page. -/
theorem sysClone_cases (hc : s.currentTask = some c) (flags userStack entry arg : ℕ) :
    (sysClone s flags userStack entry arg).2 = s ∨ s.machine.freeStack ≠ 0 ∧
      (sysClone s flags userStack entry arg).2 =
        (addTask s { s.machine.take s.machine.freeStack with
            mem := storeFrame (s.machine.take s.machine.freeStack).mem s.machine.freeStack
              (.initial entry userStack arg) } none 0
          s.machine.freeStack (s.tasks c).pml4Phys (s.tasks c).loadAddr 0).2 := by
  unfold sysClone
  split
  next hd => cases hc.symm.trans hd
  next d hd =>
    obtain rfl := Option.some.inj (hc.symm.trans hd)
    split
    · exact .inl rfl
    by_cases hf : s.machine.freeStack = 0
    · simp only [pmmAllocPage, hf, if_true]
      exact .inl trivial
    · simp only [pmmAllocPage, if_neg hf]
      exact .inr ⟨hf, rfl⟩

theorem Parked.cloned {pml4 loadAddr : ℕ} (h : Parked s c fl g) (hf : s.machine.freeStack ≠ 0)
    (r : Registers) :
    ∃ fl', Parked (addTask s { s.machine.take s.machine.freeStack with
        mem := storeFrame (s.machine.take s.machine.freeStack).mem s.machine.freeStack r } none 0
      s.machine.freeStack pml4 loadAddr 0).2 c fl' (g.set s.numTasks r) := by
  obtain ⟨fl', rfl, htail⟩ := h.sep.chain.exists_cons hf
  generalize s.machine.freeStack = f at *
  have hf0 : f % 4096 = 0 := h.sep.page f List.mem_cons_self
  obtain ⟨hnot, hnd⟩ := List.nodup_cons.mp h.sep.nodup
  have hout {a : ℕ} (ha : a < f ∨ f + 4096 ≤ a) :
      storeFrame (s.machine.take f).mem f r a = s.machine.mem a := by
    have hstore : storeFrame (s.machine.take f).mem f r a = (s.machine.take f).mem a :=
      storeWords_outside (by omega)
    rw [hstore, s.machine.take_outside ha]
  generalize hm : storeFrame (s.machine.take f).mem f r = m at hout ⊢
  have hpage {i : ℕ} (hi : i < s.numTasks) (hl : s.alive i) {a : ℕ}
      (h1 : (s.tasks i).stackPhys ≤ a) (h2 : a < (s.tasks i).stackPhys + 4096) :
      m a = s.machine.mem a := by
    have hs := h.sep.stack i hi hl
    have hne : (s.tasks i).stackPhys ≠ f := fun he =>
      h.sep.apart i hi hl (he ▸ List.mem_cons_self)
    exact hout (by omega)
  generalize hk : (addTask s { s.machine.take f with mem := m } none 0 f pml4 loadAddr 0).2 = k
  have hmem : k.machine.mem = m := by rw [← hk]; rfl
  have hfree : k.machine.freeStack = load64 s.machine.mem f := by rw [← hk]; rfl
  have hnum : k.numTasks = s.numTasks + 1 := by rw [← hk]; rfl
  have hcur : k.currentTask = s.currentTask := by rw [← hk]; rfl
  have hnew : (k.tasks s.numTasks).stackPhys = f ∧ (k.tasks s.numTasks).rsp = f := by
    rw [← hk]
    simp [addTask, newTask, ipcInitTask]
  have hold (i : ℕ) (hi : i ≠ s.numTasks) : k.tasks i = s.tasks i := by
    rw [← hk]
    simp [addTask, hi]
  have halive (i : ℕ) (hi : i ≠ s.numTasks) (hl : k.alive i) : s.alive i := by
    rw [Kernel.alive, Kernel.live, hold i hi, hcur] at hl
    exact hl
  have hcase (i : ℕ) (hi : i < k.numTasks) (hl : k.alive i) : i = s.numTasks ∨
      i ≠ s.numTasks ∧ i < s.numTasks ∧ s.alive i ∧ k.tasks i = s.tasks i := by
    by_cases he : i = s.numTasks
    · exact .inl he
    · exact .inr ⟨he, by omega, halive i he hl, hold i he⟩
  have hstackf {i : ℕ} (hi : i < s.numTasks) (hl : s.alive i) : (s.tasks i).stackPhys ≠ f :=
    fun he => h.sep.apart i hi hl (he ▸ List.mem_cons_self)
  refine ⟨fl', hcur.trans h.current, by have := h.lt; omega, ⟨?_, hnd, fun g hg =>
    h.sep.page g (List.mem_cons_of_mem _ hg), fun i hi hl => ?_, fun i hi j hj hli hlj he => ?_,
    fun i hi hl => ?_⟩, fun i hi hic hl r' hr' => ?_⟩
  · rw [hmem, hfree]
    refine htail.congr fun g hg => load_congr fun j hj => hout ?_
    have hg0 := h.sep.page g (List.mem_cons_of_mem _ hg)
    have hne : g ≠ f := fun he => hnot (he ▸ hg)
    omega
  · rcases hcase i hi hl with rfl | ⟨-, hi, hl, he⟩
    · rw [hnew.1, hf0]
    · rw [he]
      exact h.sep.stack i hi hl
  · rcases hcase i hi hli with rfl | ⟨-, hi, hli, hei⟩ <;>
      rcases hcase j hj hlj with rfl | ⟨-, hj, hlj, hej⟩
    · rfl
    · rw [hnew.1, hej] at he
      exact absurd he.symm (hstackf hj hlj)
    · rw [hnew.1, hei] at he
      exact absurd he (hstackf hi hli)
    · rw [hei, hej] at he
      exact h.sep.distinct i hi j hj hli hlj he
  · rcases hcase i hi hl with rfl | ⟨-, hi, hl, he⟩
    · rw [hnew.1]
      exact hnot
    · rw [he]
      exact fun hm => h.sep.apart i hi hl (List.mem_cons_of_mem _ hm)
  · rw [hmem]
    rcases hcase i hi hl with rfl | ⟨hne, hi, hl, he⟩
    · rw [Frames.set, Function.update_self] at hr'
      obtain rfl := Option.some.inj hr'
      rw [hnew.1, hnew.2, ← hm]
      exact ⟨rfl, loadFrame_storeFrame ..⟩
    · rw [Frames.set, Function.update_of_ne hne] at hr'
      obtain ⟨h1, h2⟩ := h.saved i hi hic hl r' hr'
      rw [he]
      exact ⟨h1, (loadFrame_congr fun a => hpage hi hl).trans h2⟩

end Step

/-- The steps in question: interrupts, stores, and the calls other than `exit`, `kill`, `spawn_at`
and those that map memory. What is written through a pointer of the running task is restricted
by `spares`. -/
def Switching (spares : Kernel → Mem → Prop) (x : System) (i : Input) : Prop :=
  match i.request with
  | .fault => False
  | .store virt b => ∀ h, userStore x.kernel.machine virt b = some h → spares x.kernel h.mem
  | .call _ (.recv msg) => ∀ res, sysRecv x.kernel msg = some res →
      spares x.kernel res.2.machine.mem
  | .call _ call => call.isTableCall ∨ call.isClone
  | _ => True

section Run

variable {s : Kernel} {x y : System} {c : ℕ} {fl : List ℕ} {g : Frames} {i : Input}

theorem Parked.syscall {io : Ports} {call : Syscall} {o : SysOutcome} (h : Parked s c fl g)
    (hrecv : ∀ msg res, call = .recv msg → sysRecv s msg = some res →
      SparesPages s res.2.machine.mem)
    (hcall : call.isTableCall ∨ call.isClone ∨ ∃ msg, call = .recv msg)
    (ho : syscallHandler s io call = some o) :
    ∃ fl', Parked o.kernel c fl' (g.created s o.kernel call) := by
  rcases hcall with ht | ht | ⟨msg, rfl⟩
  · obtain ⟨hk, hm⟩ := KeepsFrames.tableCall h.current ht ho
    have hg : g.created s o.kernel call = g := by
      cases call with
      | clone => cases ht
      | _ => rfl
    rw [hg]
    exact ⟨fl, h.keeps hk hm⟩
  · cases call with
    | clone flags userStack entry arg =>
      obtain rfl := Option.some.inj ho
      change ∃ fl', Parked (sysClone s flags userStack entry arg).2 c fl'
        (g.created s (sysClone s flags userStack entry arg).2 _)
      rcases sysClone_cases h.current flags userStack entry arg with he | ⟨hf, he⟩
      · rw [he, Frames.created, if_neg (Nat.lt_irrefl _)]
        exact ⟨fl, h⟩
      · rw [he, Frames.created]
        rw [if_pos (show s.numTasks < (addTask s _ none 0 _ _ _ 0).2.numTasks from
          Nat.lt_succ_self _)]
        exact h.cloned hf (.initial entry userStack arg)
    | _ => cases ht
  · obtain ⟨res, hres, rfl⟩ := Option.map_eq_some_iff.mp ho
    have hspare := hrecv msg res rfl hres
    rcases sysRecv_cases hres with rfl | ⟨d, m, hd, -, hw, rfl⟩
    · exact ⟨fl, h⟩
    · obtain rfl := Option.some.inj (h.current.symm.trans hd)
      have hfree : m.freeStack = s.machine.freeStack := by rw [writeUserMsg_eq hw]
      refine ⟨fl, (h.write hfree hspare).keeps ⟨.setTask rfl rfl (.inr (.inr hd)), rfl, fun i => ?_⟩
        rfl⟩
      simp only [returnInt, SysOutcome.kernel, Kernel.setTask_apply]
      split
      next he => rw [he]
      · rfl

theorem Frames.record_eq (hc : x.kernel.currentTask = some c) (y : System) (g : Frames) :
    Frames.record x i y g = g.trapped x c i := by
  rw [Frames.record, hc]
  rfl

/-- What `Switching` says of a system call. -/
private theorem Parked.call {io : Ports} {call : Syscall} {o : SysOutcome}
    (h : Parked x.kernel c fl g) (hi : Switching SparesPages x i) (hq : i.request = .call io call)
    (ho : syscallHandler x.kernel io call = some o) :
    ∃ fl', Parked o.kernel c fl' (g.created x.kernel o.kernel call) := by
  rw [Switching, hq] at hi
  cases call with
  | recv msg =>
    refine h.syscall (fun msg' res he hres => ?_) (.inr (.inr ⟨msg, rfl⟩)) ho
    cases he
    exact hi res hres
  | _ =>
    refine h.syscall (fun _ _ he => nomatch he) ?_ ho
    rcases hi with hi | hi
    · exact .inl hi
    · exact .inr (.inl hi)

private theorem FrameInv.trap {io : Ports} {r : Registers} {out : Outcome}
    (h : Parked x.kernel c fl g) (hi : Switching SparesPages x (.trap io r))
    (hs : isrHandler x.kernel io r = some out) {r0 : Registers} (hp : x.phase = .user r0) :
    FrameInv out.system (g.trapped x c (.trap io r)) := by
  obtain ⟨s, p⟩ := x
  obtain rfl : p = .user r0 := hp
  have hirq := h.keeps (KeepsFrames.irqEffect s io r.intNo.toNat)
    (KeepsSlots.irqEffect s io r.intNo.toNat).2
  unfold isrHandler at hs
  dsimp only at hs
  by_cases h31 : r.intNo.toNat ≤ 31
  · -- a page fault of the task is excluded, any other exception halts the kernel
    have hn : ¬ (r.intNo.toNat = 14 ∧ r.fromUser) := fun hn => by
      have hq : (Input.trap io r).request = .fault := by
        simp only [Input.request, if_pos h31, if_pos hn]
      rw [Switching, hq] at hi
      exact hi
    rw [if_pos h31, if_neg hn] at hs
    obtain rfl := Option.some.inj hs
    have hq : (Input.trap io r).request = .none := by
      simp only [Input.request, if_pos h31, if_neg hn]
    simp only [Frames.trapped, hq]
    exact ⟨c, fl, h.set r, fun _ he => by cases he⟩
  rw [if_neg h31] at hs
  by_cases h47 : r.intNo.toNat ≤ 47
  · have hq : (Input.trap io r).request = .irq io r.intNo.toNat := by
      simp only [Input.request, if_neg h31, if_pos h47]
    rw [if_pos h47] at hs
    split at hs
    next hn => cases hirq.current.symm.trans hn
    next d hd =>
      obtain rfl := Option.some.inj (hirq.current.symm.trans hd)
      obtain rfl := Option.some.inj hs
      simp only [Frames.trapped, hq]
      split
      · exact hirq.schedule r
      · exact hirq.resume r
  rw [if_neg h47] at hs
  by_cases h80 : r.intNo.toNat = 0x80
  · have hq : (Input.trap io r).request = .call io r.syscall := by
      simp only [Input.request, if_neg h31, if_neg h47, if_pos h80]
    rw [if_pos h80] at hs
    obtain ⟨o, ho, rfl⟩ := Option.map_eq_some_iff.mp hs
    obtain ⟨fl', hcall⟩ := Parked.call h hi hq ho
    simp only [Frames.trapped, hq, ho, Option.map_some, Option.getD_some]
    exact hcall.finishSyscall r
  · rw [if_neg h80] at hs
    obtain rfl := Option.some.inj hs
    have hq : (Input.trap io r).request = .none := by
      simp only [Input.request, if_neg h31, if_neg h47, if_neg h80]
    simp only [Frames.trapped, hq]
    exact h.resume r

/-- Each step in question resumes tasks with the frames recorded for them. -/
theorem FrameInv.step (h : FrameInv x g) (hi : Switching SparesPages x i)
    (hs : step x i = some y) : FrameInv y (Frames.record x i y g) := by
  obtain ⟨c, fl, hpark, hrec⟩ := h
  rw [Frames.record_eq hpark.current]
  obtain ⟨s, p⟩ := x
  cases i with
  | trap io r =>
    cases p with
    | user r0 =>
      obtain ⟨out, hout, rfl⟩ := Option.map_eq_some_iff.mp hs
      exact FrameInv.trap hpark hi hout rfl
    | _ => cases hs
  | irq io n =>
    cases p with
    | asleep r start target =>
      simp only [Mukrn.step] at hs
      split at hs
      · obtain rfl := Option.some.inj hs
        have hirq := hpark.keeps (KeepsFrames.irqEffect s io n) (KeepsSlots.irqEffect s io n).2
        obtain ⟨hslots, hm⟩ := KeepsSlots.sleepLoop hirq.current start target
        refine (hirq.keeps ⟨hslots, ?_, ?_⟩ hm).finishSyscall r
        all_goals
          unfold sleepLoop
          split <;> simp only [SysOutcome.kernel, Kernel.setCurrentState_eq _ hirq.current,
            Kernel.setState_apply, implies_true]
          all_goals rfl
      · cases hs
    | _ => cases hs
  | store virt b =>
    cases p with
    | user r0 =>
      obtain ⟨m, hm, rfl⟩ := Option.map_eq_some_iff.mp hs
      have hfree : m.freeStack = s.machine.freeStack := by
        unfold userStore at hm
        split at hm
        · obtain ⟨a, -, rfl⟩ := Option.map_eq_some_iff.mp hm
          rfl
        · cases hm
      exact ⟨c, fl, hpark.write hfree (hi m hm), hrec⟩
    | _ => cases hs

end Run

/-- Runs beside which the frames are recorded. -/
abbrev switchStep : System × Frames → Input → Option (System × Frames) :=
  withGhost step Frames.record

/-- When a task is resumed, its registers are those it last trapped with, with the result of its
system call in `rax`; a new thread starts with the registers its clone asked for. Pointers of the
tasks must not lead to kernel stacks or to free pages. -/
theorem resumed_frame {x y : System} {c n : ℕ} {fl : List ℕ} {last : Frames} {r f : Registers}
    (hc : x.kernel.currentTask = some c) (hlt : c < x.kernel.numTasks)
    (hsep : Separated x.kernel fl)
    (hy : Reach switchStep (fun z i => Switching SparesPages z.1 i) (x, fun _ => none) (y, last))
    (hp : y.phase = .user r) (hn : y.kernel.currentTask = some n) (hf : last n = some f) :
    r = f := by
  have hinv := hy.invariant (P := fun z => FrameInv z.1 z.2)
    ⟨c, fl, ⟨hc, hlt, hsep, fun _ _ _ _ _ hr => nomatch hr⟩, fun _ _ _ hr => nomatch hr⟩ ?_
  · obtain ⟨d, fl', hpark, hrec⟩ := hinv
    obtain rfl := Option.some.inj (hpark.current.symm.trans hn)
    exact hrec r hp f hf
  · rintro ⟨z, g⟩ i ⟨z', g'⟩ h hok hstep
    obtain ⟨hz, rfl⟩ := withGhost_eq_some.mp hstep
    exact h.step hok hz

/-- A safe kernel whose tasks have stacks meets the conditions. -/
theorem Safe.separated {use : ℕ → Use} {fl : List ℕ} {s : Kernel} (hs : Safe use fl s)
    (hst : Stacked s) : Separated s fl := by
  have huse (i : ℕ) (hi : i < s.numTasks) (hl : s.alive i) :
      use (s.tasks i).stackPhys = .stack i := (hs.stack i hi hl).resolve_left (hst i hi hl)
  constructor
  · exact hs.owned.chain
  · exact hs.owned.nodup
  · intro f hf
    have hu := (hs.owned.free f).mp hf
    exact (hs.owned.page f (by simp [hu])).1
  · intro i hi hl
    exact (hs.owned.page _ (by simp [huse i hi hl])).1
  · intro i hi j hj hli hlj he
    have hu := huse i hi hli
    rw [he, huse j hj hlj] at hu
    exact (Use.stack.inj hu).symm
  · intro i hi hl hf
    have hu := huse i hi hl
    rw [(hs.owned.free _).mp hf] at hu
    cases hu

/-- A clone that finds a page, and the frames with which its caller and the thread are parked. -/
theorem step_thread {x : System} {c : ℕ} {r0 : Registers} (io : Ports) (r : Registers)
    {flags userStack entry arg : ℕ} (hc : x.kernel.currentTask = some c) (hp : x.phase = .user r0)
    (h0 : 0 < x.kernel.numTasks) (hn : x.kernel.numTasks < maxTasks)
    (hf : x.kernel.machine.freeStack ≠ 0) (hr : r.intNo = 0x80)
    (hcall : r.syscall = .clone flags userStack entry arg) :
    ∃ y r1, step x (.trap io r) = some y ∧ y.phase = .user r1 ∧
      x.kernel.table.step r.syscall = some y.kernel.table ∧
      ∀ g, Frames.record x (.trap io r) y g =
      (g.set x.kernel.numTasks (.initial entry userStack arg)).set
        c { r with rax := .ofNat (toU64 (toInt x.kernel.nextPid)) } := by
  obtain ⟨s, p⟩ := x
  obtain rfl : p = .user r0 := hp
  dsimp only at *
  obtain ⟨k, heq, hkc, hkn⟩ : ∃ k, sysClone s flags userStack entry arg = (toInt s.nextPid, k) ∧
      k.currentTask = some c ∧ k.numTasks = s.numTasks + 1 := by
    simp only [sysClone, hc, if_neg (Nat.not_le.mpr hn), pmmAllocPage, if_neg hf]
    exact ⟨_, rfl, hc, rfl⟩
  have hk : syscallHandler s io r.syscall = some (.done (toU64 (toInt s.nextPid)) k) := by
    rw [hcall, syscallHandler, heq, returnInt]
  have ht : s.table.call c r.syscall = some k.table := by
    rw [hcall, table_sysClone hc hf hn, heq]
  have hstep := step_syscall (x := ⟨s, .user r0⟩) rfl hr hk
  have hreq : (Input.trap io r).request = .call io r.syscall := by
    have hno : r.intNo.toNat = 0x80 := by rw [hr]; rfl
    simp [Input.request, hno]
  rw [afterSyscall_eq (by omega) hkc] at hstep
  refine ⟨_, _, hstep, rfl, ?_, fun g => ?_⟩
  · rw [dispatch_kernel, table_reschedule, TaskTable.step,
      show s.table.current = some c from hc, Option.bind_some, ht, Option.bind_some]
    exact if_pos (by change 1 < k.numTasks; omega)
  · rw [Frames.record_eq (x := ⟨s, .user r0⟩) hc]
    simp only [Frames.trapped, hreq, hk, Option.map_some, Option.getD_some]
    rw [hcall]
    simp only [Frames.created, SysOutcome.kernel, hkn, Nat.lt_succ_self, if_true, Frames.returned]

/-- The thread of the sample boot starts with the registers its clone asked for. -/
theorem resumed_frame_sample : ∃ x y c n fl last r f, x.kernel.currentTask = some c ∧
    c < x.kernel.numTasks ∧ Separated x.kernel fl ∧
    Reach switchStep (fun z i => Switching SparesPages z.1 i) (x, fun _ => none) (y, last) ∧
    y.phase = .user r ∧ y.kernel.currentTask = some n ∧ last n = some f ∧ r = f := by
  obtain ⟨x, r0, use, fl, hk, hp, htx, hs, -, hfl⟩ := sample_started
  have hc : x.kernel.currentTask = some 0 := congrArg TaskTable.current htx
  have hn : x.kernel.numTasks = 1 := congrArg TaskTable.num htx
  have hsep := hs.separated (kmain_stacked hk)
  have hpage : x.kernel.machine.freeStack ≠ 0 := by
    rw [Ne, hs.owned.freeStack_eq_zero_iff]
    rintro rfl
    simp at hfl
  obtain ⟨y, r, hstep, hy, hty, hrec⟩ := step_thread quietPorts (.call 21 0 0 0 0) hc hp (by omega)
    (by rw [hn]; decide) hpage rfl rfl
  rw [htx] at hty
  have hcy : y.kernel.currentTask = some 1 :=
    congrArg TaskTable.current (Option.some.inj hty).symm
  have hrun : Reach switchStep (fun z i => Switching SparesPages z.1 i) (x, fun _ => none) (y, _) :=
    .tail .refl (i := .trap quietPorts (.call 21 0 0 0 0)) (.inr rfl)
    (withGhost_eq_some.mpr ⟨hstep, rfl⟩)
  have hlast : Frames.record x (.trap quietPorts (.call 21 0 0 0 0)) y (fun _ => none) 1 =
      some (.initial 0 0 0) := by
    rw [hrec, hn]
    rfl
  exact ⟨x, y, 0, 1, fl, _, r, _, hc, by omega, hsep, hrun, hy, hcy, hlast,
    resumed_frame hc (by omega) hsep hrun hy hcy hlast⟩

/-- One task whose only message holds the address of its own kernel stack. -/
private def loneTask : Task :=
  { zeroTask with
    state := .running
    stackPhys := 0x310000
    pml4Phys := kernelPml4Template
    ipcQueue := fun _ => ⟨0, 0x310000, fun _ => 0, 0⟩
    ipcCount := 1 }

/-- That task runs under the boot tables, and one page is free. -/
private def loneKernel : Kernel :=
  { initialKernel ⟨setupPaging fun _ => 0, 0x300000, kernelPml4Template⟩ with
    tasks := fun _ => loneTask
    currentTask := some 0
    numTasks := 1 }

private theorem loneKernel_separated : Separated loneKernel [0x300000] := by
  have hlink : load64 (setupPaging fun _ => 0) 0x300000 = 0 := by
    have hz : load64 (setupPaging fun _ => 0) 0x300000 = load64 (fun _ => 0) 0x300000 :=
      load_congr fun i _ => setupPaging_outside (by omega)
    rw [hz]
    rfl
  constructor
  · exact ⟨rfl, by decide, hlink⟩
  · exact List.nodup_singleton _
  · intro f hf
    rw [List.mem_singleton.mp hf]
  · intro i _ _
    exact (by decide : 0x310000 % 4096 = 0)
  · intro i hi j hj _ _ _
    have hn : loneKernel.numTasks = 1 := rfl
    omega
  · intro i _ _ hf
    exact absurd (List.mem_singleton.mp hf) (by decide : (0x310000 : ℕ) ≠ 0x300000)

private def loneSystem : System := ⟨loneKernel, .user (.initial 0 0 0)⟩

/-- The receive changes nothing in the stack page. -/
private theorem lone_spares :
    Switching SparesStacks loneSystem (.trap quietPorts (.call 3 0x2FFFF8 0 0 0)) := by
  have heval : ∀ i < 64, ∀ j < 64, (sysRecv loneKernel 0x2FFFF8).map (fun res =>
      res.2.machine.mem (0x310000 + 64 * i + j)) = some 0 := by decide +kernel
  intro res hres i _ _ a h1 h2
  have hs : (loneKernel.tasks i).stackPhys = 0x310000 := rfl
  have h1 : 0x310000 ≤ a := hs ▸ h1
  have h2 : a < 0x310000 + 4096 := hs ▸ h2
  have ha := heval ((a - 0x310000) / 64) (by omega) ((a - 0x310000) % 64) (by omega)
  rw [show 0x310000 + 64 * ((a - 0x310000) / 64) + (a - 0x310000) % 64 = a by omega] at ha
  obtain ⟨res', hres', ha⟩ := Option.map_eq_some_iff.mp ha
  obtain rfl := Option.some.inj (hres'.symm.trans hres)
  rw [ha]
  exact (setupPaging_outside (m := fun _ => 0) (by omega)).symm

/-- The frame with which user mode goes on. -/
private def Phase.frame : Phase → Option Registers
  | .user r => some r
  | _ => none

/-- The buffer of a receive overlaps a free page, whose link then names the kernel stack of the
receiver. The second of two clones gets that stack, and the first task is resumed with the frame
that the second thread left there. -/
theorem receive_corrupts_frame : ∃ x y c n fl last r f, x.kernel.currentTask = some c ∧
    c < x.kernel.numTasks ∧ Separated x.kernel fl ∧
    Reach switchStep (fun z i => Switching SparesStacks z.1 i) (x, fun _ => none) (y, last) ∧
    y.phase = .user r ∧ y.kernel.currentTask = some n ∧ last n = some f ∧ r ≠ f := by
  have heval : ((((switchStep (loneSystem, fun _ => none)
      (.trap quietPorts (.call 3 0x2FFFF8 0 0 0))).bind fun z =>
        switchStep z (.trap quietPorts (.call 21 0 0 0 0))).bind fun z =>
        switchStep z (.trap quietPorts (.call 21 0 0 0 0))).bind fun z =>
        switchStep z (.trap quietPorts (.call 27 0 0 0 0))).map (fun z =>
      (z.1.kernel.currentTask,
        z.1.phase.frame.bind fun r => (z.2 0).map fun f => decide (r ≠ f))) =
      some (some 0, some true) := by decide +kernel
  obtain ⟨⟨y, last⟩, hy, he⟩ := Option.map_eq_some_iff.mp heval
  obtain ⟨z3, hz3, h4⟩ := Option.bind_eq_some_iff.mp hy
  obtain ⟨z2, hz2, h3⟩ := Option.bind_eq_some_iff.mp hz3
  obtain ⟨z1, h1, h2⟩ := Option.bind_eq_some_iff.mp hz2
  obtain ⟨hc, hframes⟩ := Prod.mk.inj he
  obtain ⟨r, hr, hf⟩ := Option.bind_eq_some_iff.mp hframes
  obtain ⟨f, hf, hne⟩ := Option.map_eq_some_iff.mp hf
  have hphase : y.phase = .user r := by
    cases hp : y.phase with
    | user r' =>
      rw [hp] at hr
      rw [Option.some.inj hr]
    | asleep | stopped =>
      rw [hp] at hr
      cases hr
  have hclone (x : System) : Switching SparesStacks x (.trap quietPorts (.call 21 0 0 0 0)) :=
    Or.inr rfl
  have hyield (x : System) : Switching SparesStacks x (.trap quietPorts (.call 27 0 0 0 0)) :=
    Or.inl rfl
  have hrun : Reach switchStep (fun z i => Switching SparesStacks z.1 i) (loneSystem, fun _ => none)
      z1 := .tail .refl lone_spares h1
  replace hrun := ((hrun.tail (hclone _) h2).tail (hclone _) h3).tail (hyield _) h4
  exact ⟨loneSystem, y, 0, 0, [0x300000], last, r, f, rfl, Nat.one_pos, loneKernel_separated, hrun,
    hphase, hc, hf, of_decide_eq_true hne⟩

end Mukrn
