import Mukrn.Shell.Command
import Mukrn.Table.Origin

/-! The keyboard driver turns scan codes into characters for the shell. -/
namespace Mukrn.Shell

/-- `map` of `keyboard_driver.c`. -/
def keyMap : List UInt8 :=
  [0, 0] ++ ascii "1234567890-=" ++ [0, 0] ++ ascii "qwertyuiop[]" ++
  [0, 0] ++ ascii "asdfghjkl;" ++
    [0, 0, 0, 0] ++ ascii "zxcvbnm,./" ++ [0, code '*', 0, code ' ']

def keyChar (sc : UInt8) : Option UInt8 :=
  let c := keyMap.getD sc.toNat 0
  if sc &&& 0x80 = 0 ∧ sc.toNat < keyMap.length ∧ c ≠ 0 then some c else none

/-- What the driver sends for a message. The byte `old` was in its variable before. -/
def forward (old : UInt8) (m : Message) : Option UInt8 :=
  if m.sender = 0 ∧ m.type = 0 then keyChar (m.bytes.headD old) else none

/-- Each character is that of a scan code which the kernel has read. -/
theorem keyboard_typed {x : System} (hx : Reachable x) (i : ℕ) :
    ∀ m ∈ (x.kernel.tasks i).mailbox, ∀ old c, forward old m = some c →
      (∀ j < x.kernel.numTasks, (x.kernel.tasks j).pid ≠ m.sender) ∧
      ∃ sc, m.bytes = [sc] ∧ keyChar sc = some c := by
  intro m hm old c hc
  unfold forward at hc
  split at hc
  next hzero =>
    have hpid : ∀ j < x.kernel.numTasks, (x.kernel.tasks j).pid ≠ m.sender := by
      intro j hj
      have hgiven := hx.pid_given hj
      omega
    rcases hx.genuine i m hm with ⟨-, -, hlen⟩ | ⟨j, hj, hp⟩
    · obtain ⟨sc, hsc⟩ := List.length_eq_one_iff.mp hlen
      rw [hsc] at hc
      exact ⟨hpid, sc, hsc, hc⟩
    · exact absurd hp (hpid j hj)
  · cases hc

theorem key_pressed {s : Kernel} {r : Registers} {i : ℕ} (hx : Reachable ⟨s, .user r⟩)
    (hi : s.irqHandlers 1 = some i)
    (hr : i < maxTasks ∧ s.live i ∧ (s.tasks i).ipcCount < ipcQueueSize) (sc : UInt8) :
    ∃ y, Reachable y ∧ ⟨0, 0, [sc]⟩ ∈ (y.kernel.tasks i).mailbox := by
  obtain ⟨g, hg, -⟩ := hx.genuine_log
  obtain ⟨cfg, x0, hk, hrun⟩ := hx
  obtain ⟨m, hpush, hm⟩ := (s.tasks i).enqueue_ring 0 0 1 fun _ => sc
  have hstep : step ⟨s, .user r⟩ (.trap ⟨fun _ => sc, fun _ => 0⟩ { r with intNo := 33 }) =
      some ⟨s.setTask i ((s.tasks i).enqueue 0 0 1 fun _ => sc), .user { r with intNo := 33 }⟩ := by
    simp only [step, isrHandler, irqEffect, keyboardIrq, hi, if_pos hr]
    cases hc : s.currentTask <;> simp [hc, Outcome.system]
  refine ⟨_, ⟨cfg, x0, hk, hrun.tail trivial hstep⟩, ?_⟩
  simp [Task.mailbox, hpush, RingBuffer.Ring.contents_push (hg i).1 hr.2.2, hm]

/-- The first task takes the keyboard, and `a` is pressed. -/
theorem keyboard_typed_sample : ∃ x, Reachable x ∧ ∃ m ∈ (x.kernel.tasks 0).mailbox,
    forward 0 m = some (code 'a') ∧ ∃ sc, m.bytes = [sc] ∧ keyChar sc = some (code 'a') := by
  obtain ⟨⟨⟨h, t, c, n, pid, brk, w, irq, ticks⟩, p⟩, r, use, fl, hk, rfl, ht, -⟩ := sample_started
  obtain rfl : c = some 0 := congrArg TaskTable.current ht
  obtain rfl : n = 1 := congrArg TaskTable.num ht
  have hlive : ((t 0).state != .exited) = true := congrArg (fun b => b.state 0 != .exited) ht
  have hq : (t 0).ipcCount = 0 := congrFun (congrArg TaskTable.ipcCount ht) 0
  obtain ⟨y, hy, hm⟩ := key_pressed
    ⟨_, _, hk, .tail .refl trivial (i := .trap quietPorts (.call 10 1 0 0 0)) rfl⟩
    rfl ⟨by decide, hlive, hq.trans_lt (by decide)⟩ 30
  have hc : forward 0 ⟨0, 0, [30]⟩ = some (code 'a') := by decide +kernel
  exact ⟨y, hy, _, hm, hc, (keyboard_typed hy 0 _ hm 0 _ hc).2⟩

end Mukrn.Shell
