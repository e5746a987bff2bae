import Mukrn.Kernel.Resident
import Mukrn.Memory.Spawn

/-! The futex waiter table: whom a wake reaches, and when the table says who waits. -/
namespace Mukrn
open Runs PageTable

section Waiters

variable {s k : Kernel} {c uaddr : ℕ}

/-- What a step can do to the list of waiters. -/
inductive WaitersChange (s : Kernel) (c : ℕ) (k : Kernel) : Prop
  | same (h : k.futexWaiters = s.futexWaiters)
  | added (uaddr : ℕ) (hl : s.futexWaiters.length < maxFutexWaiters)
      (h : k.futexWaiters = s.futexWaiters ++ [⟨uaddr, c⟩])
  | woken (uaddr : ℕ) (h : Woken uaddr s k)

private theorem setCurrentState_waiters (s : Kernel) (st : TaskState) :
    (s.setCurrentState st).futexWaiters = s.futexWaiters := by
  unfold Kernel.setCurrentState
  split <;> rfl

private theorem sleepLoop_waiters (s : Kernel) (start target : ℕ) :
    (sleepLoop s start target).kernel.futexWaiters = s.futexWaiters := by
  unfold sleepLoop
  split <;> exact setCurrentState_waiters s _

private theorem irqEffect_waiters (s : Kernel) (io : Ports) (n : ℕ) :
    (irqEffect s io n).futexWaiters = s.futexWaiters := by
  unfold irqEffect keyboardIrq
  split
  · rfl
  · split
    · split
      · rfl
      · split <;> rfl
    · rfl

private theorem sysExit_waiters (hc : s.currentTask = some c) :
    (sysExit s).futexWaiters = s.futexWaiters := by rw [sysExit_eq hc]

theorem Served.waiters {x : System} {q : Request} (hc : x.kernel.currentTask = some c)
    (h : Served x q k) : WaitersChange x.kernel c k := by
  cases h with
  | none => exact .same rfl
  | store => exact .same rfl
  | fault => exact .same (sysExit_waiters hc)
  | irq => exact .same (irqEffect_waiters ..)
  | asleep => exact .same ((sleepLoop_waiters ..).trans (irqEffect_waiters ..))
  | call ho =>
    cases syscallHandler_effect hc ho with
    | quiet hq =>
      obtain ⟨m, b, rfl, -⟩ := hq
      exact .same rfl
    | exit => exact .same (sysExit_waiters hc)
    | clone hs =>
      obtain ⟨m, kstack, pml4, la, cp, rfl, -⟩ := hs
      exact .same rfl
    | spawnAt hs =>
      obtain ⟨m, kstack, pml4, la, cp, rfl, -⟩ := hs
      exact .same rfl
    | @futexWait uaddr val rax hl => exact .added uaddr hl rfl
    | @futexWake uaddr val rax k hw => exact .woken uaddr hw
    | nanosleep => exact .same (sleepLoop_waiters ..)
    | _ => exact .same rfl

theorem Woken.subperm (h : Woken uaddr s k) : k.futexWaiters.Subperm s.futexWaiters := by
  obtain ⟨st, l, rfl, hle, -⟩ := h
  exact List.subperm_ext_iff.mpr fun e _ => hle e

theorem WaitersChange.length_le (h : WaitersChange s c k)
    (hs : s.futexWaiters.length ≤ maxFutexWaiters) : k.futexWaiters.length ≤ maxFutexWaiters := by
  cases h with
  | same h => rwa [h]
  | added uaddr hl h =>
    rw [h, List.length_append]
    exact hl
  | woken uaddr h => exact h.subperm.length_le.trans hs

end Waiters

/-- The table never holds more entries than it has room for. -/
theorem Reachable.waiters_le {x : System} (hx : Reachable x) :
    x.kernel.futexWaiters.length ≤ maxFutexWaiters := by
  obtain ⟨cfg, x0, hk, hr⟩ := hx
  have hinv : Reachable x ∧ x.kernel.futexWaiters.length ≤ maxFutexWaiters := by
    apply hr.invariant (P := fun z => Reachable z ∧ z.kernel.futexWaiters.length ≤ maxFutexWaiters)
    · refine ⟨⟨cfg, x0, hk, .refl⟩, ?_⟩
      rw [(kmain_fresh hk).1]
      exact Nat.zero_le _
    · rintro z i u ⟨hz, hle⟩ - hu
      refine ⟨hz.trans (.tail .refl trivial hu), ?_⟩
      obtain ⟨k, hk, hf⟩ := step_finish hu
      rcases hz.indexed.1 with ⟨hp, -⟩ | ⟨⟨c, hs⟩, -⟩
      · rw [step_stopped hp] at hu
        cases hu
      · rw [hf.sameTable.futexWaiters]
        exact ((serve_cases hk).waiters hs.current).length_le hle
  exact hinv.2

section Wake

variable {s : Kernel} {c uaddr : ℕ}

private theorem getElem_swapRemove {l : List FutexWaiter} {i j : ℕ} {w e : FutexWaiter} (hj : j < i)
    (he : ((l.set i w).dropLast)[j]? = some e) : l[j]? = some e := by
  rw [List.getElem?_dropLast] at he
  split at he
  · rwa [List.getElem?_set_ne (by omega)] at he
  · cases he

/-- A wake that stays below its bound, or may wake as many tasks as there are entries, removes all
entries for its address. -/
theorem futexWakeLoop_removes (uaddr : ℕ) (val : ℤ) (fuel i : ℕ) (woken : ℤ)
    (hfuel : s.futexWaiters.length ≤ fuel + i)
    (hval : (futexWakeLoop uaddr val fuel i woken s).1 < val ∨ woken + fuel ≤ val)
    (hbefore : ∀ j < i, ∀ e, s.futexWaiters[j]? = some e → e.uaddr ≠ uaddr) :
    ∀ e ∈ (futexWakeLoop uaddr val fuel i woken s).2.futexWaiters, e.uaddr ≠ uaddr := by
  have hdone {s : Kernel} {i : ℕ} (hlen : s.futexWaiters.length ≤ i)
      (hbefore : ∀ j < i, ∀ e, s.futexWaiters[j]? = some e → e.uaddr ≠ uaddr) :
      ∀ e ∈ s.futexWaiters, e.uaddr ≠ uaddr := by
    intro e he
    obtain ⟨j, hj, rfl⟩ := List.mem_iff_getElem.mp he
    exact hbefore j (hj.trans_le hlen) _ (List.getElem?_eq_getElem hj)
  induction fuel generalizing i woken s with
  | zero => exact hdone (s := s) (by omega) hbefore
  | succ fuel ih =>
    revert hval
    unfold futexWakeLoop
    split
    next hlt =>
      split
      next hi => exact fun _ => hdone (List.getElem?_eq_none_iff.mp hi) hbefore
      next w hi =>
        have hin := (List.getElem?_eq_some_iff.mp hi).1
        split
        next hu =>
          intro hval
          apply ih _ _
          · simp only [List.length_dropLast, List.length_set]
            omega
          · refine hval.imp_right fun h => ?_
            split <;> omega
          · intro j hj e he
            exact hbefore j hj e (getElem_swapRemove hj he)
        next hu =>
          intro hval
          apply ih _ _ (by omega) (hval.imp_right fun h => by omega)
          intro j hj e he
          rcases Nat.lt_succ_iff_lt_or_eq.mp hj with hj | rfl
          · exact hbefore j hj e he
          · rw [hi] at he
            obtain rfl := Option.some.inj he
            exact hu
    next hge =>
      rintro (h | h)
      · exact absurd h hge
      · omega

/-- The slots whose state a wake changes or of which it removes an entry. -/
def WakeReaches (s k : Kernel) (j : ℕ) : Prop :=
  (k.tasks j).state ≠ (s.tasks j).state ∨ Removed s.futexWaiters k.futexWaiters j

/-- A slot is reached through an entry for the address of the wake. -/
theorem Woken.reaches {k : Kernel} {j : ℕ} (h : Woken uaddr s k) (hj : WakeReaches s k j) :
    ∃ e ∈ s.futexWaiters, e.uaddr = uaddr ∧ e.taskIdx = j := by
  obtain ⟨st, l, rfl, -, hother, hst⟩ := h
  have hrem : Removed s.futexWaiters l j := by
    rcases hj with hj | hj
    · rcases hst j with ⟨-, hr, -⟩ | ⟨-, hsame⟩
      · exact hr
      · exact absurd hsame hj
    · exact hj
  obtain ⟨e, he, hlt⟩ := hrem
  refine ⟨e, List.count_pos_iff.mp (Nat.zero_le _ |>.trans_lt hlt), ?_, he⟩
  by_contra hne
  rw [hother e hne] at hlt
  exact lt_irrefl _ hlt

end Wake

/-- The second process of the sample waits on a word of the kernel image, and the first one runs. -/
theorem sample_futexWaiting : ∃ x y z r v, kmain (sampleConfig sampleMap) = some x ∧
    step x (.trap quietPorts (.call 26 0x10F000 128 0 0)) = some y ∧ TwoProcesses y.kernel ∧
    step y (.trap quietPorts (.call 22 0x10F000 0 v 0)) = some z ∧ z.phase = .user r ∧
    (Registers.call 22 0x10F000 0 v 0).syscall = .futex 0x10F000 0 v ∧
    readUser32 y.kernel.machine 0x10F000 = some v ∧
    z.kernel.currentTask = some 0 ∧ z.kernel.numTasks = 2 ∧ (z.kernel.tasks 1).state = .blocked ∧
    z.kernel.futexWaiters = [⟨0x10F000, 1⟩] ∧
    (z.kernel.tasks 1).pml4Phys ≠ (z.kernel.tasks 0).pml4Phys ∧
    (z.kernel.tasks 1).ipcCount = 0 := by
  obtain ⟨x, y, r, use, fl, hk, hxy, hp, hs, -, htwo⟩ := sample_spawned
  have hy : Reachable y := ⟨_, x, hk, .tail .refl trivial hxy⟩
  have hsched := (hy.scheduled (by rw [hp]; exact fun h => by cases h) htwo.current).1
  obtain ⟨v, hv⟩ : ∃ v, v = ByteMemory.load y.kernel.machine.mem 0x10F000 4 := ⟨_, rfl⟩
  have hread : readUser32 y.kernel.machine 0x10F000 = some v := by
    rw [readUser32_eq fun i hi => ?_, ← hv]
    rw [Nat.mod_eq_of_lt (by omega)]
    refine translate_identity ?_ (by omega)
    rw [hsched.root]
    exact htwo.identity 1 (by decide) _ (by omega)
  have hvlt : v < 2 ^ 32 := by
    rw [hv]
    exact ByteMemory.load_lt ..
  have hsys : (Registers.call 22 0x10F000 0 v 0).syscall = .futex 0x10F000 0 v := by
    have hrdx : (UInt64.ofNat v).toNat = v := UInt64.toNat_ofNat_of_lt' (hvlt.trans (by decide))
    change Syscall.decode 22 0x10F000 0 (UInt64.ofNat v).toNat 0 = _
    rw [hrdx]
    simp only [Syscall.decode, Nat.mod_eq_of_lt hvlt]
    rfl
  obtain ⟨k, hkdef⟩ : ∃ k, k =
      { y.kernel with futexWaiters := [⟨0x10F000, 1⟩] }.setState 1 .blocked := ⟨_, rfl⟩
  have hcall : syscallHandler y.kernel quietPorts (Registers.call 22 0x10F000 0 v 0).syscall =
      some (.done 0 k) := by
    have hfutex : sysFutex y.kernel 0x10F000 0 v = some (0, k) := by
      simp [sysFutex, htwo.current, hread, htwo.waiters, maxFutexWaiters, hkdef]
    rw [hsys]
    exact congrArg (Option.map returnInt) hfutex
  have hnum : k.numTasks = 2 := by
    rw [hkdef]
    exact htwo.num
  have hcur : k.currentTask = some 1 := by
    rw [hkdef]
    exact htwo.current
  have hready : (k.tasks 0).state = .ready := by
    rw [hkdef, Kernel.setState_apply, if_neg (by decide)]
    exact htwo.first
  have hblocked : (k.tasks 1).state = .blocked := by
    rw [hkdef, Kernel.setState_apply, if_pos rfl]
  have hwaiters : k.futexWaiters = [⟨0x10F000, 1⟩] := by
    rw [hkdef]
    rfl
  have hkeep (i : ℕ) : (k.tasks i).pml4Phys = (y.kernel.tasks i).pml4Phys ∧
      (k.tasks i).ipcCount = (y.kernel.tasks i).ipcCount := by
    rw [hkdef, Kernel.setState_apply]
    exact ⟨rfl, rfl⟩
  have hstep := step_syscall hp rfl hcall
  generalize ({ Registers.call 22 0x10F000 0 v 0 with rax := .ofNat 0 } : Registers) = r1 at hstep
  rw [afterSyscall_eq (by omega) hcur] at hstep
  have hsame := yieldCaller_sameTable k 1 r1
  have hst (j : ℕ) : ((yieldCaller k 1 r1).tasks j).state = (k.tasks j).state := by
    rw [yieldCaller_state, if_neg]
    rintro ⟨-, hrun⟩
    exact hrun.1 hblocked
  have hnext : nextTask (yieldCaller k 1 r1) 1 = 0 := by
    have hn := hsame.numTasks
    rcases nextTask_spec (s := yieldCaller k 1 r1) (c := 1) (by omega) (by omega) with h | ⟨-, h⟩
    · omega
    · exact absurd ((hst 0).trans hready) (h 0 (by omega) (by decide))
  rw [hnext, dispatch_eq] at hstep
  have htask (i : ℕ) : ((dispatched (yieldCaller k 1 r1) 0).tasks i).pml4Phys =
        (y.kernel.tasks i).pml4Phys ∧
      ((dispatched (yieldCaller k 1 r1) 0).tasks i).ipcCount = (y.kernel.tasks i).ipcCount := by
    obtain ⟨st, rsp, he⟩ := hsame.tasks i
    simp only [dispatched, Kernel.setState_apply, he]
    exact hkeep i
  refine ⟨x, y, _, _, v, hk, hxy, htwo, hstep, rfl, hsys, hread, rfl, hsame.numTasks.trans hnum, ?_,
    hsame.futexWaiters.trans hwaiters, ?_, (htask 1).2.trans htwo.mail⟩
  · change ((dispatched (yieldCaller k 1 r1) 0).tasks 1).state = .blocked
    simp only [dispatched, Kernel.setState_apply]
    rw [if_neg (by decide), hst, hblocked]
  · change ((dispatched (yieldCaller k 1 r1) 0).tasks 1).pml4Phys ≠
      ((dispatched (yieldCaller k 1 r1) 0).tasks 0).pml4Phys
    rw [(htask 1).1, (htask 0).1]
    exact htwo.roots.symm

theorem sysFutex_wake {s : Kernel} {c : ℕ} (hc : s.currentTask = some c) (uaddr val : ℕ) :
    sysFutex s uaddr 1 val =
      some (futexWakeLoop uaddr (toInt val) s.futexWaiters.length 0 0 s) := by
  simp only [sysFutex, hc]
  rfl

/-- In every reachable state the wakes of the current task on an address, whatever their count, stay
in its address space exactly when all entries for the address are of tasks in this space. -/
theorem futex_wake_in_space_iff {x : System} {c : ℕ} (hx : Reachable x)
    (hc : x.kernel.currentTask = some c) (uaddr : ℕ) :
    (∀ val res, sysFutex x.kernel uaddr 1 val = some res → ∀ j, WakeReaches x.kernel res.2 j →
      (x.kernel.tasks j).pml4Phys = (x.kernel.tasks c).pml4Phys) ↔
    ∀ e ∈ x.kernel.futexWaiters, e.uaddr = uaddr →
      (x.kernel.tasks e.taskIdx).pml4Phys = (x.kernel.tasks c).pml4Phys := by
  have hcall := sysFutex_wake hc uaddr
  constructor
  · intro h e he hu
    apply h (2 ^ 31 - 1) _ (hcall _)
    -- every entry for the address goes, so this one is on the list less often than before
    refine .inr ⟨e, rfl, ?_⟩
    have hroom : 0 + (x.kernel.futexWaiters.length : ℤ) ≤ toInt (2 ^ 31 - 1) := by
      have hle := hx.waiters_le
      have hmax : maxFutexWaiters = 128 := rfl
      have hint : toInt (2 ^ 31 - 1) = 2 ^ 31 - 1 := by decide +kernel
      omega
    have hgone := futexWakeLoop_removes (s := x.kernel) uaddr (toInt (2 ^ 31 - 1))
      x.kernel.futexWaiters.length 0 0 le_rfl (.inr hroom) fun j hj => absurd hj (Nat.not_lt_zero j)
    have hnot : e ∉ (futexWakeLoop uaddr (toInt (2 ^ 31 - 1)) x.kernel.futexWaiters.length 0 0
        x.kernel).2.futexWaiters := fun hmem => hgone e hmem hu
    rw [List.count_eq_zero.mpr hnot]
    exact List.count_pos_iff.mpr he
  · intro h val res hres j hj
    obtain rfl := Option.some.inj ((hcall val).symm.trans hres)
    obtain ⟨e, he, hu, rfl⟩ := (futexWakeLoop_woken uaddr _ _ _ _ x.kernel).reaches hj
    exact h e he hu

/-- A thread waits on a word of the kernel image, and its creator runs. -/
theorem futex_wake_in_space_iff_sample : ∃ x, Reachable x ∧ x.kernel.currentTask = some 0 ∧
    x.kernel.futexWaiters = [⟨0x10F010, 1⟩] ∧
    ∀ val res, sysFutex x.kernel 0x10F010 1 val = some res → ∀ j, WakeReaches x.kernel res.2 j →
      (x.kernel.tasks j).pml4Phys = (x.kernel.tasks 0).pml4Phys := by
  have heval : (((kmain (bareConfig 12 fun _ => 0)).bind fun x =>
      step x (.trap quietPorts (.call 21 0 0 0 0))).bind fun y =>
        step y (.trap quietPorts (.call 22 0x10F010 0 0 0))).map (fun z =>
      (z.kernel.currentTask, z.kernel.futexWaiters,
        decide ((z.kernel.tasks 1).pml4Phys = (z.kernel.tasks 0).pml4Phys))) =
      some (some 0, [⟨0x10F010, 1⟩], true) := by decide +kernel
  obtain ⟨z, hz, he⟩ := Option.map_eq_some_iff.mp heval
  obtain ⟨y, hy, hyz⟩ := Option.bind_eq_some_iff.mp hz
  obtain ⟨x, hk, hxy⟩ := Option.bind_eq_some_iff.mp hy
  have hreach : Reachable z := ⟨_, x, hk, .tail (.tail .refl trivial hxy) trivial hyz⟩
  simp only [Prod.mk.injEq, decide_eq_true_eq] at he
  obtain ⟨hc, hw, hroot⟩ := he
  refine ⟨z, hreach, hc, hw, (futex_wake_in_space_iff hreach hc 0x10F010).mpr fun e he _ => ?_⟩
  rw [hw, List.mem_singleton] at he
  rw [he]
  exact hroot

/-- A process wakes another one that waits on the same virtual address in a space of its own. -/
theorem futex_wake_crosses_spaces : ∃ x res, Reachable x ∧ x.kernel.currentTask = some 0 ∧
    sysFutex x.kernel 0x10F000 1 1 = some res ∧ (x.kernel.tasks 1).state = .blocked ∧
    (res.2.tasks 1).state = .ready ∧
    (x.kernel.tasks 1).pml4Phys ≠ (x.kernel.tasks 0).pml4Phys := by
  obtain ⟨x, y, z, r, v, hk, hxy, -, hyz, -, -, -, hc, -, hb, hw, hne, -⟩ := sample_futexWaiting
  have hz : Reachable z := ⟨_, x, hk, .tail (.tail .refl trivial hxy) trivial hyz⟩
  have hint : toInt 1 = 1 := by decide +kernel
  refine ⟨z, _, hz, hc, sysFutex_wake hc 0x10F000 1, hb, ?_, hne⟩
  simp [futexWakeLoop, hw, hb, hint]

/-- The slot whose state a request changes from outside: the waiter of an ending task, the target of
a kill or of a message, the handler of the keyboard. -/
def Request.disturbs (s : Kernel) : Request → Option ℕ
  | .fault | .call _ .exit => s.currentTask.bind fun c => (s.tasks c).waitIdx
  | .call _ (.kill pid) | .call _ (.send pid _ _ _) => s.findLive pid
  | .irq _ n => if n = 33 then s.irqHandlers 1 else .none
  | _ => .none

/-- A request that disturbs no futex waiter. A task only goes to wait on a futex when another one is
there to run. -/
def Undisturbed (s : Kernel) (q : Request) : Prop :=
  (∀ j, q.disturbs s = some j → ∀ e ∈ s.futexWaiters, e.taskIdx ≠ j) ∧
  ∀ io uaddr val, q = .call io (.futex uaddr 0 val) →
    ∃ j < s.numTasks, s.currentTask ≠ some j ∧ (s.tasks j).state = .ready

/-- The call leaves its caller `c` blocked. -/
def Syscall.blocks (s : Kernel) (c : ℕ) : Syscall → Bool
  | .futex uaddr op val =>
    op = 0 ∧ readUser32 s.machine uaddr = some val ∧ s.futexWaiters.length < maxFutexWaiters
  | .wait pid => (s.findPid pid).any fun i => (s.tasks i).state != .exited
  | .waitAny => ∀ i < s.numTasks, i ≠ c → (s.tasks i).state ≠ .exited
  | .nanosleep ns => stillAsleep s s.ticks (ns / 2000000)
  | _ => false

/-- The address a call waits on, if it is a futex call. -/
def Syscall.futexAddr : Syscall → Option ℕ
  | .futex uaddr _ _ => some uaddr
  | _ => none

/-- For each slot, the futex address of the most recent call that blocked it. -/
def recordBlock (x : System) (i : Input) (_ : System) (last : ℕ → Option ℕ) : ℕ → Option ℕ :=
  match i.request, x.kernel.currentTask with
  | .call _ call, some c =>
    if call.blocks x.kernel c then Function.update last c call.futexAddr else last
  | _, _ => last

theorem recordBlock_of_ne {x : System} {i : Input} {y : System} {last : ℕ → Option ℕ} {j : ℕ}
    (hj : x.kernel.currentTask ≠ some j) : recordBlock x i y last j = last j := by
  unfold recordBlock
  cases i.request with
  | call io call =>
    cases hc : x.kernel.currentTask with
    | none => rfl
    | some c =>
      have hne : j ≠ c := fun he => hj (he ▸ hc)
      dsimp only
      split
      · exact Function.update_of_ne hne ..
      · rfl
  | _ => rfl

theorem step_call {x y : System} {i : Input} {io : Ports} {call : Syscall}
    (h : step x i = some y) (hq : i.request = .call io call) :
    ∃ r o, syscallHandler x.kernel io call = some o ∧ y = (finishSyscall r o).system := by
  cases i with
  | irq io n => cases hq
  | store virt b => cases hq
  | trap io' r =>
    have hint : r.intNo = 0x80 ∧ io' = io ∧ r.syscall = call := by
      simp only [Input.request] at hq
      split at hq
      · split at hq <;> cases hq
      split at hq
      · cases hq
      split at hq
      next hn =>
        cases hq
        exact ⟨UInt64.toNat_inj.mp hn, rfl, rfl⟩
      · cases hq
    obtain ⟨hint, rfl, rfl⟩ := hint
    cases hp : x.phase with
    | user r0 =>
      simp only [step, hp, isrHandler_call x.kernel io' hint] at h
      obtain ⟨out, hout, rfl⟩ := Option.map_eq_some_iff.mp h
      obtain ⟨o, ho, rfl⟩ := Option.map_eq_some_iff.mp hout
      exact ⟨r, o, ho, rfl⟩
    | asleep r0 start target => simp only [step, hp, reduceCtorEq] at h
    | stopped => simp only [step, hp, reduceCtorEq] at h

/-- Every entry is of a blocked task whose last blocking call is the wait on the entry's address,
and which is not the current one. No task has two. -/
structure ExactWaiters (s : Kernel) (last : ℕ → Option ℕ) : Prop where
  entry : ∀ e ∈ s.futexWaiters, (s.tasks e.taskIdx).state = .blocked ∧ last e.taskIdx = some e.uaddr
  idle : ∀ e ∈ s.futexWaiters, s.currentTask ≠ some e.taskIdx
  nodup : (s.futexWaiters.map (·.taskIdx)).Nodup

namespace ExactWaiters

variable {s k : Kernel} {last last' : ℕ → Option ℕ} {c uaddr : ℕ}

theorem congr (h : ExactWaiters s last) (hw : k.futexWaiters = s.futexWaiters)
    (hc : k.currentTask = s.currentTask)
    (hst : ∀ e ∈ s.futexWaiters, (k.tasks e.taskIdx).state = (s.tasks e.taskIdx).state)
    (hl : ∀ e ∈ s.futexWaiters, last' e.taskIdx = last e.taskIdx) : ExactWaiters k last' := by
  constructor
  · intro e he
    rw [hw] at he
    rw [hst e he, hl e he]
    exact h.entry e he
  · intro e he
    rw [hw] at he
    rw [hc]
    exact h.idle e he
  · rw [hw]
    exact h.nodup

/-- Another slot than those of the entries changes its state. -/
theorem setState (h : ExactWaiters s last) {i : ℕ} (hi : ∀ e ∈ s.futexWaiters, e.taskIdx ≠ i)
    (st : TaskState) : ExactWaiters (s.setState i st) last := by
  refine h.congr rfl rfl (fun e he => ?_) fun _ _ => rfl
  rw [Kernel.setState_apply, if_neg (hi e he)]

theorem ne_current (h : ExactWaiters s last) (hc : s.currentTask = some c) :
    ∀ e ∈ s.futexWaiters, e.taskIdx ≠ c :=
  fun e he heq => h.idle e he (heq ▸ hc)

/-- Entries for one address go, and the tasks they name become ready. -/
theorem woken (h : ExactWaiters s last) (hw : Woken uaddr s k) : ExactWaiters k last := by
  have hsub := hw.subperm
  obtain ⟨st, l, rfl, hle, -, hst⟩ := hw
  have hmem (e : FutexWaiter) (he : e ∈ l) : e ∈ s.futexWaiters := hsub.subset he
  have hinj := List.inj_on_of_nodup_map h.nodup
  have hone := List.nodup_iff_count_le_one.mp (List.Nodup.of_map _ h.nodup)
  constructor
  · intro e he
    obtain ⟨hb, hlast⟩ := h.entry e (hmem e he)
    refine ⟨?_, hlast⟩
    rcases hst e.taskIdx with ⟨-, ⟨e', hidx, hlt⟩, -⟩ | ⟨-, hsame⟩
    · -- the entry removed would be a second one of this task
      have he' : e' ∈ s.futexWaiters := List.count_pos_iff.mp (Nat.zero_le _ |>.trans_lt hlt)
      obtain rfl := hinj he' (hmem e he) hidx
      have hpos : 0 < l.count e' := List.count_pos_iff.mpr he
      have hle := hone e'
      omega
    · exact hsame.trans hb
  · exact fun e he => h.idle e (hmem e he)
  · apply List.Nodup.map_on
    · exact fun a ha b hb => hinj (hmem a ha) (hmem b hb)
    · exact List.nodup_iff_count_le_one.mpr fun e => (hle e).trans (hone e)

/-- What the current task does with its own slot, and what is recorded of it, touches no entry. -/
theorem record {x : System} {i : Input} {y : System} (h : ExactWaiters k last)
    (hc : k.currentTask = x.kernel.currentTask) : ExactWaiters k (recordBlock x i y last) := by
  refine h.congr rfl rfl (fun _ _ => rfl) fun e he => recordBlock_of_ne ?_
  rw [← hc]
  exact h.idle e he

theorem setCurrentState (h : ExactWaiters s last) (hc : s.currentTask = some c) (st : TaskState) :
    ExactWaiters (s.setCurrentState st) last := by
  rw [Kernel.setCurrentState_eq st hc]
  exact h.setState (h.ne_current hc) st

theorem sleepLoop (h : ExactWaiters s last) (hc : s.currentTask = some c) (start target : ℕ) :
    ExactWaiters (sleepLoop s start target).kernel last := by
  unfold Mukrn.sleepLoop
  split
  · exact h.setCurrentState hc _
  · exact h.setCurrentState hc _

theorem sysExit (h : ExactWaiters s last) (hc : s.currentTask = some c)
    (hw : ∀ j, (s.tasks c).waitIdx = some j → ∀ e ∈ s.futexWaiters, e.taskIdx ≠ j) :
    ExactWaiters (sysExit s) last := by
  rw [sysExit_eq hc]
  refine h.congr rfl rfl (fun e he => ?_) fun _ _ => rfl
  have hne := h.ne_current hc e he
  have hnw : (s.tasks c).waitIdx ≠ some e.taskIdx := fun heq => hw _ heq e he rfl
  simp only [exitTasks, if_neg hne, if_neg hnw]

theorem irqEffect (h : ExactWaiters s last) (io : Ports) (n : ℕ)
    (hu : Undisturbed s (.irq io n)) : ExactWaiters (irqEffect s io n) last := by
  unfold Mukrn.irqEffect keyboardIrq
  split
  · exact h.congr rfl rfl (fun _ _ => rfl) fun _ _ => rfl
  next h32 =>
  split
  next h33 =>
    split
    · exact h
    next i hi =>
      split
      · refine h.congr rfl rfl (fun e he => ?_) fun _ _ => rfl
        have hne : e.taskIdx ≠ i := hu.1 i ((if_pos h33).trans hi) e he
        rw [Kernel.setTask_apply, if_neg hne]
      · exact h
  · exact h

theorem spawned (h : ExactWaiters s last) (hidx : Indexed s) (hs : Spawned s k) :
    ExactWaiters k last := by
  obtain ⟨m, kstack, pml4, la, cp, rfl, -⟩ := hs
  refine h.congr rfl rfl (fun e he => ?_) fun _ _ => rfl
  have hlt := hidx.stored e.taskIdx (.inr (.inr ⟨e, he, rfl⟩))
  simp only [addTask, Option.getD_none, Kernel.setTask_apply, if_neg hlt.ne]

/-- Calls other than futex waits. -/
theorem callEffect (h : ExactWaiters s last) (hidx : Indexed s) (hc : s.currentTask = some c)
    {io : Ports} {call : Syscall} {o : SysOutcome} (hu : Undisturbed s (.call io call))
    (hn : ∀ uaddr val, call ≠ .futex uaddr 0 val) (he : CallEffect s c call o) :
    ExactWaiters o.kernel last := by
  have hother (i : ℕ) (t : Task) (hi : ∀ e ∈ s.futexWaiters, e.taskIdx ≠ i) :
      ExactWaiters (s.setTask i t) last := by
    refine h.congr rfl rfl (fun e he => ?_) fun _ _ => rfl
    rw [Kernel.setTask_apply, if_neg (hi e he)]
  cases he with
  | quiet hq =>
    obtain ⟨m, b, rfl, -⟩ := hq
    exact h.congr rfl rfl (fun _ _ => rfl) fun _ _ => rfl
  | exit =>
    apply h.sysExit hc
    intro j hj
    exact hu.1 j (by rw [Request.disturbs, hc]; exact hj)
  | send hi => exact hother _ _ (hu.1 _ hi)
  | @recv msg rax m hq hw =>
    have hm : ExactWaiters { s with machine := m } last :=
      h.congr rfl rfl (fun _ _ => rfl) fun _ _ => rfl
    refine hm.congr rfl rfl (fun e he => ?_) fun _ _ => rfl
    simp only [SysOutcome.kernel, Kernel.setTask_apply, if_neg (h.ne_current hc e he)]
  | @wait pid i rax hi hl =>
    have hset : ExactWaiters (s.setTask i { s.tasks i with waitIdx := some c }) last := by
      refine h.congr rfl rfl (fun e he => ?_) fun _ _ => rfl
      rw [Kernel.setTask_apply]
      split
      next hei => rw [hei]
      · rfl
    exact hset.setState (h.ne_current hc) _
  | waitAny =>
    have hset : ExactWaiters { s with tasks := waitAnyTasks s c } last := by
      refine h.congr rfl rfl (fun e he => ?_) fun _ _ => rfl
      simp only [waitAnyTasks]
      split <;> rfl
    exact hset.setState (h.ne_current hc) _
  | irqRegister => exact h.congr rfl rfl (fun _ _ => rfl) fun _ _ => rfl
  | @kill pid i rax m hi hr =>
    exact (h.setState (hu.1 i hi) .exited).congr rfl rfl (fun _ _ => rfl) fun _ _ => rfl
  | clone hs => exact h.spawned hidx hs
  | spawnAt hs => exact h.spawned hidx hs
  | @futexWait uaddr val => exact absurd rfl (hn uaddr val)
  | futexWake hw => exact h.woken hw
  | nanosleep => exact h.sleepLoop hc _ _
  | shutdown => exact h

/-- A slot without an entry is dispatched. -/
theorem dispatch {n : ℕ}
    (he : ∀ e ∈ s.futexWaiters,
      (s.tasks e.taskIdx).state = .blocked ∧ last e.taskIdx = some e.uaddr)
    (hne : ∀ e ∈ s.futexWaiters, e.taskIdx ≠ n) (hnd : (s.futexWaiters.map (·.taskIdx)).Nodup) :
    ExactWaiters (dispatch s n).system.kernel last := by
  rw [dispatch_kernel]
  constructor
  · intro e hmem
    obtain ⟨hb, hlast⟩ := he e hmem
    refine ⟨?_, hlast⟩
    simp only [dispatched, Kernel.setState_apply]
    rw [if_neg (hne e hmem), hb]
  · intro e hmem heq
    exact hne e hmem (Option.some.inj heq).symm
  · exact hnd

/-- The current task is preempted or gives way, or a ready slot is dispatched. -/
theorem finish (h : ExactWaiters k last) (hc : k.currentTask = some c) {y : System}
    (hf : Finish k y) : ExactWaiters y.kernel last := by
  -- the slot dispatched is the caller's or one that is ready, and neither has an entry
  have hnext {t : Kernel} {n : ℕ} (ht : SameTable k t)
      (hst : ∀ e ∈ k.futexWaiters, (t.tasks e.taskIdx).state = .blocked)
      (hn : n = c ∨ (t.tasks n).state = .ready) :
      ExactWaiters (Mukrn.dispatch t n).system.kernel last := by
    apply dispatch
    · intro e he
      rw [ht.futexWaiters] at he
      exact ⟨hst e he, (h.entry e he).2⟩
    · rintro e he rfl
      rw [ht.futexWaiters] at he
      rcases hn with hn | hn
      · exact h.ne_current hc e he hn
      · rw [hst e he] at hn
        cases hn
    · rw [ht.futexWaiters]
      exact h.nodup
  cases hf with
  | stay => exact h
  | timer r hd =>
    obtain rfl := Option.some.inj (hd.symm.trans hc)
    refine hnext (preempt_sameTable ..) (fun e he => ?_) (nextTask_ready ..)
    rw [preempt_state, if_neg (h.ne_current hc e he)]
    exact (h.entry e he).1
  | call r hd =>
    obtain rfl := Option.some.inj (hd.symm.trans hc)
    refine hnext (yieldCaller_sameTable ..) (fun e he => ?_) (nextTask_ready ..)
    rw [yieldCaller_state, if_neg (fun hj => h.ne_current hc e he hj.1)]
    exact (h.entry e he).1
  | fault _ hi =>
    apply hnext (.refl k) (fun e he => (h.entry e he).1)
    have hr := List.find?_some hi
    simp only [isReady, beq_iff_eq] at hr
    exact .inr hr

/-- Requests other than futex waits. -/
theorem served {x : System} {q : Request} (h : ExactWaiters x.kernel last)
    (hidx : Indexed x.kernel) (hc : x.kernel.currentTask = some c) (hu : Undisturbed x.kernel q)
    (hn : ∀ io uaddr val, q ≠ .call io (.futex uaddr 0 val)) (hs : Served x q k) :
    ExactWaiters k last := by
  cases hs with
  | none => exact h
  | store => exact h.congr rfl rfl (fun _ _ => rfl) fun _ _ => rfl
  | fault =>
    apply h.sysExit hc
    intro j hj
    exact hu.1 j (by rw [Request.disturbs, hc]; exact hj)
  | irq => exact h.irqEffect _ _ hu
  | @call io call o ho =>
    exact h.callEffect hidx hc hu (fun u v he => hn io u v (by rw [he]))
      (syscallHandler_effect hc ho)
  | @asleep io n =>
    exact (h.irqEffect io n hu).sleepLoop ((irqEffect_currentTask ..).trans hc) _ _

/-- A caller that blocks on a futex enters the table once and gives way to another task. -/
theorem block (h : ExactWaiters s last) (hs : Scheduled s c) {j : ℕ} (hj : j < s.numTasks)
    (hjc : j ≠ c) (hjr : (s.tasks j).state = .ready) (uaddr : ℕ) (r : Registers) :
    ExactWaiters (afterSyscall ({ s with
        futexWaiters := s.futexWaiters ++ [FutexWaiter.mk uaddr c] }.setState c .blocked)
      r).system.kernel (Function.update last c (some uaddr)) := by
  obtain ⟨k, hk⟩ : ∃ k, k = { s with
      futexWaiters := s.futexWaiters ++ [FutexWaiter.mk uaddr c] }.setState c .blocked := ⟨_, rfl⟩
  rw [← hk]
  have hkw : k.futexWaiters = s.futexWaiters ++ [FutexWaiter.mk uaddr c] := by
    rw [hk]
    rfl
  have hkn : k.numTasks = s.numTasks := by
    rw [hk]
    rfl
  have hkc : k.currentTask = some c := by
    rw [hk]
    exact hs.current
  have hkst (i : ℕ) : (k.tasks i).state = if i = c then .blocked else (s.tasks i).state := by
    rw [hk, Kernel.setState_apply]
  have hyst (i : ℕ) : ((yieldCaller k c r).tasks i).state = (k.tasks i).state := by
    rw [yieldCaller_state, if_neg]
    rintro ⟨-, hrun⟩
    rw [Runnable, hkst, if_pos rfl] at hrun
    exact hrun.1 rfl
  have hcn := hs.lt
  rw [afterSyscall_eq (by omega) hkc]
  have hsame := yieldCaller_sameTable k c r
  have hyn : (yieldCaller k c r).numTasks = s.numTasks := hsame.numTasks.trans hkn
  have hyw := hsame.futexWaiters.trans hkw
  -- the caller is blocked, so the scan does not come back to it
  have hnext : ((yieldCaller k c r).tasks (nextTask (yieldCaller k c r) c)).state = .ready := by
    rcases nextTask_spec (s := yieldCaller k c r) (c := c) (by omega) (by omega) with
      ⟨-, -, hr⟩ | ⟨-, hno⟩
    · exact hr
    · refine absurd ?_ (hno j (by omega) hjc)
      rw [hyst, hkst, if_neg hjc, hjr]
  have hentry (e : FutexWaiter) (he : e ∈ (yieldCaller k c r).futexWaiters) :
      ((yieldCaller k c r).tasks e.taskIdx).state = .blocked ∧
        Function.update last c (some uaddr) e.taskIdx = some e.uaddr := by
    rw [hyw, List.mem_append, List.mem_singleton] at he
    rw [hyst, hkst]
    rcases he with he | rfl
    · have hne := h.ne_current hs.current e he
      rw [if_neg hne, Function.update_of_ne hne]
      exact h.entry e he
    · rw [if_pos rfl, Function.update_self]
      exact ⟨rfl, rfl⟩
  apply dispatch hentry
  · intro e he heq
    rw [← heq, (hentry e he).1] at hnext
    cases hnext
  · rw [hyw, List.map_append, List.map_singleton, List.nodup_append]
    refine ⟨h.nodup, List.nodup_singleton c, ?_⟩
    rintro a ha b hb rfl
    obtain ⟨e, he, rfl⟩ := List.mem_map.mp ha
    exact h.ne_current hs.current e he (List.mem_singleton.mp hb)

theorem futexWait {x : System} {i : Input} {y : System} {io : Ports} {val : ℕ} {r : Registers}
    {o : SysOutcome} (h : ExactWaiters x.kernel last) (hs : Scheduled x.kernel c)
    (hq : i.request = .call io (.futex uaddr 0 val)) (hu : Undisturbed x.kernel i.request)
    (ho : syscallHandler x.kernel io (.futex uaddr 0 val) = some o) :
    ExactWaiters (finishSyscall r o).system.kernel (recordBlock x i y last) := by
  obtain ⟨j, hj, hjc, hjr⟩ := hu.2 io uaddr val hq
  obtain ⟨res, hres, rfl⟩ := Option.map_eq_some_iff.mp ho
  simp only [sysFutex, hs.current, if_true] at hres
  obtain ⟨word, hw, rfl⟩ := Option.map_eq_some_iff.mp hres
  have hsame (r' : Registers) :
      ExactWaiters (afterSyscall x.kernel r').system.kernel (recordBlock x i y last) :=
    (h.record rfl).finish hs.current (afterSyscall_finish _ _)
  split
  · exact hsame _
  split
  · exact hsame _
  next hval hfull =>
    have hrec : recordBlock x i y last = Function.update last c (some uaddr) := by
      have hword : readUser32 x.kernel.machine uaddr = some val := by
        rw [hw, not_not.mp hval]
      simp only [recordBlock, hq, hs.current, Syscall.blocks, hword, Nat.not_le.mp hfull,
        and_self, decide_true, if_true, Syscall.futexAddr]
    rw [hrec]
    have hblock := h.block hs hj (fun he => hjc (he ▸ hs.current)) hjr uaddr
    rw [hs.current] at hblock
    exact hblock _

theorem step {x y : System} {i : Input} (h : ExactWaiters x.kernel last) (hidx : Indexed x.kernel)
    (hs : Scheduled x.kernel c) (hu : Undisturbed x.kernel i.request) (hy : step x i = some y) :
    ExactWaiters y.kernel (recordBlock x i y last) := by
  by_cases hn : ∀ io uaddr val, i.request ≠ .call io (.futex uaddr 0 val)
  · obtain ⟨k, hk, hf⟩ := step_finish hy
    have hserved := serve_cases hk
    have hkc := (hs.served hserved).current
    have hk := (h.served hidx hs.current hu hn hserved).record (i := i) (y := y)
      (hkc.trans hs.current.symm)
    exact hk.finish hkc hf
  · push Not at hn
    obtain ⟨io, uaddr, val, hq⟩ := hn
    obtain ⟨r, o, ho, rfl⟩ := step_call hy hq
    exact h.futexWait hs hq hu ho

end ExactWaiters

/-- In a run whose requests disturb no futex waiter, the entries of the table are those of the tasks
blocked in a futex wait, each once. -/
theorem futex_waiters_exact {cfg : BootConfig} {x0 y : System} {last : ℕ → Option ℕ}
    (hk : kmain cfg = some x0)
    (hrun : Reach (withGhost step recordBlock) (fun z i => Undisturbed z.1.kernel i.request)
      (x0, fun _ => none) (y, last)) :
    (∀ e ∈ y.kernel.futexWaiters,
      (y.kernel.tasks e.taskIdx).state = .blocked ∧ last e.taskIdx = some e.uaddr) ∧
    (y.kernel.futexWaiters.map (·.taskIdx)).Nodup := by
  have hinv : Reachable y ∧ ExactWaiters y.kernel last := by
    apply hrun.invariant (P := fun z => Reachable z.1 ∧ ExactWaiters z.1.kernel z.2)
    · refine ⟨⟨cfg, x0, hk, .refl⟩, ?_⟩
      have hnil := (kmain_fresh hk).1
      constructor <;> simp [hnil]
    · rintro ⟨z, g⟩ i ⟨u, g'⟩ ⟨hz, hex⟩ hu hzu
      obtain ⟨hstep, rfl⟩ := withGhost_eq_some.mp hzu
      refine ⟨hz.trans (.tail .refl trivial hstep), ?_⟩
      obtain ⟨hsch, hidx⟩ := hz.indexed
      rcases hsch with ⟨hp, -⟩ | ⟨⟨c, hs⟩, -⟩
      · rw [step_stopped hp] at hstep
        cases hstep
      · exact hex.step hidx hs hu hstep
  exact ⟨hinv.2.entry, hinv.2.nodup⟩

/-- The second process of the sample goes to wait while the first is ready. -/
theorem futex_waiters_exact_sample : ∃ x y last, kmain (sampleConfig sampleMap) = some x ∧
    Reach (withGhost step recordBlock) (fun z i => Undisturbed z.1.kernel i.request)
      (x, fun _ => none) (y, last) ∧
    y.kernel.futexWaiters = [⟨0x10F000, 1⟩] ∧ (y.kernel.tasks 1).state = .blocked ∧
    last 1 = some 0x10F000 := by
  obtain ⟨x, y, z, r, v, hk, hxy, htwo, hyz, -, hsys, -, -, -, -, hw, -, -⟩ := sample_futexWaiting
  have hspawn : (Input.trap quietPorts (.call 26 0x10F000 128 0 0)).request =
      .call quietPorts (.spawnAt 0x10F000 128) := rfl
  have hwait : (Input.trap quietPorts (.call 22 0x10F000 0 v 0)).request =
      .call quietPorts (.futex 0x10F000 0 v) := by
    rw [← hsys]
    rfl
  have hxok : Undisturbed x.kernel (.call quietPorts (.spawnAt 0x10F000 128)) := by
    constructor
    · intro j hj
      cases hj
    · intro io u val he
      cases he
  have hyok : Undisturbed y.kernel (.call quietPorts (.futex 0x10F000 0 v)) := by
    constructor
    · intro j hj
      cases hj
    · intro io u val _
      refine ⟨0, ?_, ?_, htwo.first⟩
      · rw [htwo.num]
        decide
      · rw [htwo.current]
        decide
  obtain ⟨last, hrun⟩ : ∃ last, Reach (withGhost step recordBlock)
      (fun z i => Undisturbed z.1.kernel i.request) (x, fun _ => none) (z, last) := by
    refine ⟨_, .tail (.tail .refl ?_ (withGhost_eq_some.mpr ⟨hxy, rfl⟩)) ?_
      (withGhost_eq_some.mpr ⟨hyz, rfl⟩)⟩
    · rw [hspawn]
      exact hxok
    · rw [hwait]
      exact hyok
  have hexact := (futex_waiters_exact hk hrun).1 ⟨0x10F000, 1⟩ (by simp [hw])
  exact ⟨x, z, last, hk, hrun, hw, hexact⟩

/-- A message makes the waiting process run again, and its entry stays. -/
theorem futex_entry_stale : ∃ x, Reachable x ∧ x.kernel.futexWaiters = [⟨0x10F000, 1⟩] ∧
    (x.kernel.tasks 1).state = .running := by
  obtain ⟨x, y, z, r, v, hk, hxy, -, hyz, hp, -, -, hc, hnum, hb, hw, -, hmail⟩ :=
    sample_futexWaiting
  have hz : Reachable z := ⟨_, x, hk, .tail (.tail .refl trivial hxy) trivial hyz⟩
  have hpid : (z.kernel.tasks 1).pid = 8 := (hz.table hc).2.pid 1 (by omega)
  have hfind : z.kernel.findLive 8 = some 1 := by
    rw [← hpid]
    rw [(hz.table hc).2.findLive_eq (by omega), if_pos (by simp [Kernel.live, hb])]
  obtain ⟨t, ht⟩ : ∃ t, t = (z.kernel.tasks 1).enqueue z.kernel.currentPid 0 0 fun i => 0 :=
    ⟨_, rfl⟩
  have htr : t.state = .ready := by simp [ht, Task.enqueue, hb]
  have hcall : syscallHandler z.kernel quietPorts (Registers.call 2 8 0 0 0).syscall =
      some (.done 0 (z.kernel.setTask 1 t)) := by
    have hsend : sysSend z.kernel 8 0 0 0 = some (0, z.kernel.setTask 1 t) := by
      simp [sysSend, hfind, hmail, ipcQueueSize, ipcMaxData, readUserBytes, ht]
    exact congrArg (Option.map returnInt) hsend
  have hstep := step_syscall hp rfl hcall
  generalize ({ Registers.call 2 8 0 0 0 with rax := .ofNat 0 } : Registers) = r1 at hstep
  have hkn : (z.kernel.setTask 1 t).numTasks = 2 := hnum
  rw [afterSyscall_eq (k := z.kernel.setTask 1 t) (c := 0) (by omega) hc] at hstep
  have hsame := yieldCaller_sameTable (z.kernel.setTask 1 t) 0 r1
  have hn := hsame.numTasks
  have hnext : nextTask (yieldCaller (z.kernel.setTask 1 t) 0 r1) 0 = 1 := by
    rcases nextTask_spec (s := yieldCaller (z.kernel.setTask 1 t) 0 r1) (c := 0) (by omega)
      (by omega) with h | ⟨-, h⟩
    · omega
    · refine absurd ?_ (h 1 (by omega) (by decide))
      rw [yieldCaller_state, if_neg (fun h => absurd h.1 (by decide)), Kernel.setTask_apply,
        if_pos rfl, htr]
  rw [hnext, dispatch_eq] at hstep
  refine ⟨_, hz.trans (.tail .refl trivial hstep), hsame.futexWaiters.trans hw, ?_⟩
  change ((dispatched (yieldCaller (z.kernel.setTask 1 t) 0 r1) 1).tasks 1).state = .running
  simp [dispatched]

end Mukrn
