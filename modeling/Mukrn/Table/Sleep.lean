import Mukrn.Table.Identity

/-! `sys_nanosleep` halts inside the system call: the processor waits for a certain timer tick. -/
namespace Mukrn
open Runs

/-- Ticks since `start`, as the loop computes them. -/
def slept (s : Kernel) (start : ℕ) : ℕ := (s.ticks + 2 ^ 64 - start) % 2 ^ 64

variable {s : Kernel} {x y : System} {c start target : ℕ} {r : Registers}

/-- Slot `c` is asleep while fewer than `target` ticks have passed, and no task runs. Later its call
has returned 0. -/
def Sleeps (c start target : ℕ) (r : Registers) (y : System) : Prop :=
  (y.phase = .asleep r start target ∧ slept y.kernel start < target ∧ Scheduled y.kernel c ∧
    ∀ i, (y.kernel.tasks i).state ≠ .running) ∨
  ∃ k, target ≤ slept k start ∧ Scheduled k c ∧ y = (afterSyscall k { r with rax := 0 }).system

theorem Scheduled.sleepLoop_sleeps (h : Scheduled s c) :
    Sleeps c start target r (finishSyscall r (Mukrn.sleepLoop s start target)).system := by
  unfold Mukrn.sleepLoop
  rw [Kernel.setCurrentState_eq _ h.current, Kernel.setCurrentState_eq _ h.current]
  split
  next hlt =>
    have hb : Scheduled (s.setState c .blocked) c := h.setState (by simp)
    refine .inl ⟨rfl, of_decide_eq_true hlt, hb, fun i hi => ?_⟩
    obtain rfl := hb.running i hi
    simp [finishSyscall, Outcome.system] at hi
  next hge =>
    have hticks : target ≤ slept s start := Nat.not_lt.mp fun hlt => hge (decide_eq_true hlt)
    exact .inr ⟨s.setState c .running, hticks, h.setState fun _ => rfl, rfl⟩

/-- Neither other tasks nor other interrupts end a sleep early. Tick `ns / 2000000` ends it. -/
theorem nanosleep_sleeps {r0 : Registers} {ns : ℕ} (io : Ports) (h : Scheduled s c)
    (hr : r.intNo = 0x80) (hcall : r.syscall = .nanosleep ns)
    (hx : step ⟨s, .user r0⟩ (.trap io r) = some x)
    (hy : Reach step (fun z _ => z.phase = .asleep r s.ticks (ns / 2000000)) x y) :
    Sleeps c s.ticks (ns / 2000000) r y := by
  apply hy.invariant
  · simp only [step, isrHandler_call s io hr, hcall, syscallHandler, Option.map_some] at hx
    obtain rfl := Option.some.inj hx
    exact h.sleepLoop_sleeps
  · rintro ⟨t, p⟩ i u hs rfl hu
    rcases hs with ⟨-, -, ht, -⟩ | ⟨k, -, -, hk⟩
    · cases i with
      | irq io n =>
        simp only [step] at hu
        split at hu
        · obtain rfl := Option.some.inj hu
          exact (ht.irqEffect io n).sleepLoop_sleeps
        · cases hu
      | trap => cases hu
      | store => cases hu
    · -- A call that has returned is not asleep.
      unfold afterSyscall at hk
      split at hk
      · split at hk
        · cases hk
        · simp only [dispatch_eq] at hk
          cases hk
      · cases hk

theorem nanosleep_sleeps_sample : ∃ s r0 x, Scheduled s 0 ∧
    step ⟨s, .user r0⟩ (.trap quietPorts (.call 14 4000000 0 0 0)) = some x ∧
    Sleeps 0 s.ticks (4000000 / 2000000) (.call 14 4000000 0 0 0) x := by
  obtain ⟨⟨s, p⟩, r, use, fl, hk, rfl, ht, -⟩ := sample_started
  have hs : Scheduled s 0 := (Reachable.scheduled ⟨_, _, hk, .refl⟩ (fun h => by cases h)
    (congrArg TaskTable.current ht)).1
  exact ⟨s, r, _, hs, rfl, nanosleep_sleeps quietPorts hs rfl rfl rfl .refl⟩

end Mukrn
