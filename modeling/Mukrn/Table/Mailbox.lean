import Mukrn.Table.Current
import Mukrn.Library.RingBuffer

/-! Mailboxes are first-in first-out queues. A log beside the run records the messages
accepted for each slot and the messages its task has received. -/
namespace Mukrn
open Runs

/-- What a message is to its receiver: the bytes of the slot past `length` do not count. -/
structure Message where
  sender : ℕ
  type : ℕ
  bytes : List UInt8
  deriving DecidableEq, Repr

def IpcMsg.message (m : IpcMsg) : Message := ⟨m.senderPid, m.type, (List.range m.length).map m.data⟩

def Task.ring (t : Task) : RingBuffer.Ring IpcMsg := ⟨t.ipcQueue, t.ipcHead, t.ipcTail, t.ipcCount⟩

/-- Messages waiting in a task's ring, oldest first. -/
def Task.mailbox (t : Task) : List Message := (t.ring.contents ipcQueueSize).map IpcMsg.message

/-- History of each slot since its task was created. -/
structure Log where
  accepted : ℕ → List Message
  received : ℕ → List Message

namespace Log

def empty : Log := ⟨fun _ => [], fun _ => []⟩

def accept (g : Log) (i : ℕ) (m : Message) : Log :=
  { g with accepted := Function.update g.accepted i (g.accepted i ++ [m]) }

def receive (g : Log) (i : ℕ) (m : Message) : Log :=
  { g with received := Function.update g.received i (g.received i ++ [m]) }

def forget (g : Log) (i : ℕ) : Log :=
  ⟨Function.update g.accepted i [], Function.update g.received i []⟩

end Log

/-- The slot and the message a keyboard interrupt delivers when it finds room. -/
def keyDelivery (s : Kernel) (sc : UInt8) : Option (ℕ × Message) :=
  (s.irqHandlers 1).bind fun i =>
    if i < maxTasks ∧ s.live i ∧ (s.tasks i).ipcCount < ipcQueueSize then
      some (i, ⟨0, 0, [sc]⟩)
    else none

/-- The slot and the message of a send that returns `0`. -/
def sendDelivery (s : Kernel) (targetPid type data len : ℕ) : Option (ℕ × Message) :=
  (sysSend s targetPid type data len).bind fun res =>
    if res.1 = 0 then
      (s.findLive targetPid).bind fun i =>
        (readUserBytes s.machine data (min len 64)).map fun bytes =>
          (i, ⟨s.currentPid, type, bytes⟩)
    else none

/-- The caller and the message copied out by a receive that returns `0`. -/
def reception (s : Kernel) (msg : ℕ) : Option (ℕ × Message) :=
  (sysRecv s msg).bind fun res =>
    if res.1 = 0 then
      s.currentTask.map fun c =>
        (c, ((s.tasks c).ipcQueue (s.tasks c).ipcTail).message)
    else none

/-- Record what a request accepts and what it hands out. -/
def Log.serve (g : Log) (s : Kernel) : Request → Log
  | .irq io n =>
    if n = 33 then ((keyDelivery s (io.inb 0x60)).map fun (i, m) => g.accept i m).getD g else g
  | .call _ (.send targetPid type data len) =>
    ((sendDelivery s targetPid type data len).map fun (i, m) => g.accept i m).getD g
  | .call _ (.recv msg) => ((reception s msg).map fun (i, m) => g.receive i m).getD g
  | _ => g

/-- A step's record; the history of a slot starts anew when a task is created in it. -/
def Log.record (x : System) (i : Input) (y : System) (g : Log) : Log :=
  let g := g.serve x.kernel i.request
  if x.kernel.numTasks < y.kernel.numTasks then g.forget x.kernel.numTasks else g

/-- Cursors are in order, and what was received followed by what waits is what was accepted. -/
def MailInv (s : Kernel) (g : Log) : Prop :=
  ∀ i, (s.tasks i).ring.Valid ipcQueueSize ∧
    g.received i ++ (s.tasks i).mailbox = g.accepted i

theorem MailInv.congr {s s' : Kernel} {g : Log} (h : MailInv s g)
    (hr : ∀ i, (s'.tasks i).ring = (s.tasks i).ring) : MailInv s' g := by
  intro i
  rw [Task.mailbox, hr i]
  exact h i

theorem SameTable.ring {s s' : Kernel} (h : SameTable s s') (i : ℕ) :
    (s'.tasks i).ring = (s.tasks i).ring := by
  obtain ⟨st, rsp, hi⟩ := h.tasks i
  rw [hi]
  rfl

theorem MailInv.sameTable {s s' : Kernel} {g : Log} (h : MailInv s g) (hs : SameTable s s') :
    MailInv s' g := h.congr hs.ring

/-- Filling a slot is a push of the new message. -/
theorem Task.enqueue_ring (t : Task) (pid type len : ℕ) (data : ℕ → UInt8) :
    ∃ m : IpcMsg, (t.enqueue pid type len data).ring = t.ring.push ipcQueueSize m ∧
      m.message = ⟨pid, type, (List.range len).map data⟩ := by
  refine ⟨_, rfl, ?_⟩
  simp only [IpcMsg.message, Message.mk.injEq, true_and]
  apply List.map_congr_left
  intro k hk
  exact if_pos (List.mem_range.mp hk)

theorem MailInv.accept {s : Kernel} {g : Log} (h : MailInv s g) {i pid type len : ℕ}
    {data : ℕ → UInt8} (hr : (s.tasks i).ipcCount < ipcQueueSize) :
    MailInv (s.setTask i ((s.tasks i).enqueue pid type len data))
      (g.accept i ⟨pid, type, (List.range len).map data⟩) := by
  intro j
  by_cases hj : j = i
  · subst hj
    obtain ⟨hv, hl⟩ := h j
    obtain ⟨m, hm, hmsg⟩ := (s.tasks j).enqueue_ring pid type len data
    simp only [Kernel.setTask_apply, if_true, Task.mailbox, hm, Log.accept, Function.update_self]
    refine ⟨hv.push hr, ?_⟩
    rw [RingBuffer.Ring.contents_push hv hr, List.map_append, ← List.append_assoc]
    rw [show g.received j ++ List.map IpcMsg.message ((s.tasks j).ring.contents ipcQueueSize) = _
      from hl, List.map_singleton, hmsg]
  · simp only [Kernel.setTask_apply, if_neg hj, Log.accept, Function.update_of_ne hj]
    exact h j

theorem MailInv.receive {s : Kernel} {g : Log} (h : MailInv s g) {c : ℕ} (m : Machine)
    (hq : (s.tasks c).ipcCount ≠ 0) :
    MailInv ({ s with machine := m }.setTask c
        { s.tasks c with
          ipcTail := ((s.tasks c).ipcTail + 1) % ipcQueueSize
          ipcCount := (s.tasks c).ipcCount - 1 })
      (g.receive c ((s.tasks c).ipcQueue (s.tasks c).ipcTail).message) := by
  intro j
  by_cases hj : j = c
  · subst hj
    obtain ⟨hv, hl⟩ := h j
    have hpos : 0 < (s.tasks j).ring.count := Nat.pos_of_ne_zero hq
    have hc := RingBuffer.Ring.contents_pop (n := ipcQueueSize) hpos
    rw [Nat.mod_eq_of_lt hv.tail_lt] at hc
    simp only [Kernel.setTask_apply, if_true, Log.receive, Function.update_self]
    refine ⟨hv.pop hpos, ?_⟩
    rw [← hl, Task.mailbox, Task.mailbox, hc, List.map_cons, List.append_assoc]
    rfl
  · simp only [Kernel.setTask_apply, if_neg hj, Log.receive, Function.update_of_ne hj]
    exact h j

/-- A fresh task has an empty ring and a fresh history. -/
theorem MailInv.spawned {s s' : Kernel} {g : Log} (h : MailInv s g) (hs : Spawned s s') :
    s.numTasks < s'.numTasks ∧ MailInv s' (g.forget s.numTasks) := by
  obtain ⟨m, kstack, pml4, la, cp, rfl, -⟩ := hs
  refine ⟨Nat.lt_succ_self _, fun j => ?_⟩
  by_cases hj : j = s.numTasks
  · subst hj
    simp only [addTask, Option.getD_none, Kernel.setTask_apply, if_true, Log.forget,
      Function.update_self]
    exact ⟨⟨Nat.zero_le _, Nat.succ_pos 15, Nat.succ_pos 15, rfl⟩, rfl⟩
  · simp only [addTask, Option.getD_none, Kernel.setTask_apply, if_neg hj, Log.forget,
      Function.update_of_ne hj]
    exact h j

theorem exitTasks_ring (s : Kernel) (c j : ℕ) : (exitTasks s c j).ring = (s.tasks j).ring := by
  unfold exitTasks
  split
  next hj => rw [hj]; rfl
  · rfl

theorem sysExit_ring {s : Kernel} {c : ℕ} (hc : s.currentTask = some c) (j : ℕ) :
    ((sysExit s).tasks j).ring = (s.tasks j).ring := by
  rw [sysExit_eq hc]
  exact exitTasks_ring s c j

theorem setState_ring (s : Kernel) (i j : ℕ) (st : TaskState) :
    ((s.setState i st).tasks j).ring = (s.tasks j).ring := (setState_sameTable s i st).ring j

/-- Apart from send, receive and creation no call touches a ring. -/
theorem CallEffect.ring {s : Kernel} {c : ℕ} {call : Syscall} {o : SysOutcome}
    (he : CallEffect s c call o) (hc : s.currentTask = some c)
    (hsend : ∀ p t d l, call ≠ .send p t d l) (hrecv : ∀ m, call ≠ .recv m) :
    (o.kernel.numTasks = s.numTasks ∧ ∀ j, (o.kernel.tasks j).ring = (s.tasks j).ring) ∨
      Spawned s o.kernel := by
  cases he with
  | quiet hq =>
    obtain ⟨m, b, rfl, -⟩ := hq
    exact .inl ⟨rfl, fun _ => rfl⟩
  | exit =>
    refine .inl ⟨?_, sysExit_ring hc⟩
    simp only [SysOutcome.kernel, sysExit_eq hc]
  | send => exact absurd rfl (hsend _ _ _ _)
  | recv => exact absurd rfl (hrecv _)
  | wait =>
    refine .inl ⟨rfl, fun j => (setState_ring ..).trans ?_⟩
    simp only [Kernel.setTask_apply]
    split
    next hj => rw [hj]; rfl
    · rfl
  | waitAny =>
    refine .inl ⟨rfl, fun j => (setState_ring ..).trans ?_⟩
    simp only [waitAnyTasks]
    split <;> rfl
  | irqRegister => exact .inl ⟨rfl, fun _ => rfl⟩
  | kill => exact .inl ⟨rfl, fun j => setState_ring ..⟩
  | clone hs => exact .inr hs
  | spawnAt hs => exact .inr hs
  | futexWait => exact .inl ⟨rfl, fun j => setState_ring ..⟩
  | futexWake hw =>
    obtain ⟨st, l, rfl, -⟩ := hw
    exact .inl ⟨rfl, fun _ => rfl⟩
  | nanosleep =>
    exact .inl ⟨(sysNanosleep_sameTable ..).numTasks, (sysNanosleep_sameTable ..).ring⟩
  | shutdown => exact .inl ⟨rfl, fun _ => rfl⟩

/-- The log after a step whose own work has led to `k`. -/
def Log.settle (s : Kernel) (q : Request) (k : Kernel) (g : Log) : Log :=
  if s.numTasks < k.numTasks then (g.serve s q).forget s.numTasks else g.serve s q

theorem MailInv.settled {s k : Kernel} {q : Request} {g : Log} (h : MailInv k (g.serve s q))
    (hn : k.numTasks = s.numTasks) : MailInv k (g.settle s q k) := by
  rw [Log.settle, if_neg (by omega)]
  exact h

theorem MailInv.irqEffect {s : Kernel} {g : Log} (h : MailInv s g) (io : Ports) (n : ℕ) :
    MailInv (irqEffect s io n) (g.serve s (.irq io n)) ∧
      (Mukrn.irqEffect s io n).numTasks = s.numTasks := by
  by_cases h32 : n = 32
  · subst h32
    exact ⟨h.congr fun _ => rfl, rfl⟩
  by_cases h33 : n = 33
  · subst h33
    simp only [Mukrn.irqEffect, Log.serve, if_neg h32, if_true, keyboardIrq, keyDelivery]
    cases hi : s.irqHandlers 1 with
    | none => exact ⟨h, rfl⟩
    | some i =>
      simp only [Option.bind_some]
      split
      next hr => exact ⟨h.accept hr.2.2, rfl⟩
      · exact ⟨h, rfl⟩
  · simp only [Mukrn.irqEffect, Log.serve, if_neg h32, if_neg h33]
    exact ⟨h, trivial⟩

theorem bytes_getD {n : ℕ} {bytes : List UInt8} (hl : bytes.length = n) :
    (List.range n).map (fun k => bytes.getD k 0) = bytes := by
  subst hl
  apply List.ext_getElem
  · simp
  · intro k h1 h2
    simp [List.getD_eq_getElem?_getD, h2]

private theorem length_of_mapM {α β : Type} {f : α → Option β} {l : List α} {l' : List β}
    (h : l.mapM f = some l') : l'.length = l.length := by
  induction l generalizing l' with
  | nil =>
    rw [List.mapM_nil] at h
    obtain rfl := Option.some.inj h
    rfl
  | cons a l ih =>
    rw [List.mapM_cons] at h
    obtain ⟨b, -, h⟩ := Option.bind_eq_some_iff.mp h
    obtain ⟨t, ht, h⟩ := Option.bind_eq_some_iff.mp h
    obtain rfl := Option.some.inj h
    rw [List.length_cons, List.length_cons, ih ht]

theorem readUserBytes_length {h : Machine} {p n : ℕ} {bytes : List UInt8}
    (hb : readUserBytes h p n = some bytes) : bytes.length = n := by
  rw [length_of_mapM hb, List.length_range]

theorem MailInv.send {s : Kernel} {g : Log} {io : Ports} {p t d l : ℕ} {res : ℤ × Kernel}
    (h : MailInv s g) (hres : sysSend s p t d l = some res) :
    MailInv res.2 (g.serve s (.call io (.send p t d l))) ∧ res.2.numTasks = s.numTasks := by
  have hlog : g.serve s (.call io (.send p t d l)) =
      ((sendDelivery s p t d l).map fun (i, m) => g.accept i m).getD g := rfl
  rw [hlog, sendDelivery, hres]
  rcases sysSend_cases hres with rfl | ⟨i, bytes, hi, hr, hb, rfl⟩
  · exact ⟨h, rfl⟩
  · have hbs : readUserBytes s.machine d (min l 64) = some bytes := hb
    simp only [Option.bind_some, if_true, hi, hbs, Option.map_some, Option.getD_some]
    refine ⟨?_, rfl⟩
    nth_rewrite 2 [← bytes_getD (readUserBytes_length hb)]
    exact h.accept hr

theorem MailInv.recv {s : Kernel} {g : Log} {io : Ports} {msg : ℕ} {res : ℤ × Kernel}
    (h : MailInv s g) (hres : sysRecv s msg = some res) :
    MailInv res.2 (g.serve s (.call io (.recv msg))) ∧ res.2.numTasks = s.numTasks := by
  have hlog : g.serve s (.call io (.recv msg)) =
      ((reception s msg).map fun (i, m) => g.receive i m).getD g := rfl
  rw [hlog, reception, hres]
  rcases sysRecv_cases hres with rfl | ⟨c, m, hc, hq, -, rfl⟩
  · exact ⟨h, rfl⟩
  · simp only [Option.bind_some, if_true, hc, Option.map_some, Option.getD_some]
    exact ⟨h.receive m hq, rfl⟩

theorem MailInv.call {s : Kernel} {g : Log} {c : ℕ} {io : Ports} {call : Syscall} {o : SysOutcome}
    (h : MailInv s g) (hc : s.currentTask = some c) (ho : syscallHandler s io call = some o) :
    MailInv o.kernel (g.settle s (.call io call) o.kernel) := by
  by_cases hsend : ∃ p t d l, call = .send p t d l
  · obtain ⟨p, t, d, l, rfl⟩ := hsend
    obtain ⟨res, hres, rfl⟩ := Option.map_eq_some_iff.mp ho
    obtain ⟨hm, hn⟩ := h.send hres
    exact hm.settled hn
  by_cases hrecv : ∃ m, call = .recv m
  · obtain ⟨m, rfl⟩ := hrecv
    obtain ⟨res, hres, rfl⟩ := Option.map_eq_some_iff.mp ho
    obtain ⟨hm, hn⟩ := h.recv hres
    exact hm.settled hn
  · push Not at hsend hrecv
    have hlog : g.serve s (.call io call) = g := by
      cases call with
      | send p t d l => exact absurd rfl (hsend p t d l)
      | recv m => exact absurd rfl (hrecv m)
      | _ => rfl
    rcases (syscallHandler_effect hc ho).ring hc hsend hrecv with ⟨hn, hr⟩ | hs
    · refine MailInv.settled ?_ hn
      rw [hlog]
      exact h.congr hr
    · obtain ⟨hn, hm⟩ := h.spawned hs
      rw [Log.settle, if_pos hn, hlog]
      exact hm

theorem MailInv.served {x : System} {g : Log} {c : ℕ} {q : Request} {k : Kernel}
    (h : MailInv x.kernel g) (hc : x.kernel.currentTask = some c) (hs : Served x q k) :
    MailInv k (g.settle x.kernel q k) := by
  cases hs with
  | none => exact MailInv.settled h rfl
  | store => exact MailInv.settled h rfl
  | fault =>
    refine MailInv.settled (h.congr (sysExit_ring hc)) ?_
    rw [sysExit_eq hc]
  | irq =>
    obtain ⟨hm, hn⟩ := h.irqEffect _ _
    exact hm.settled hn
  | call ho => exact h.call hc ho
  | @asleep io n start target =>
    obtain ⟨hm, hn⟩ := h.irqEffect io n
    have hs : SameTable (Mukrn.irqEffect x.kernel io n)
        (sleepLoop (Mukrn.irqEffect x.kernel io n) start target).kernel := sleepLoop_sameTable ..
    exact (hm.sameTable hs).settled (hs.numTasks.trans hn)

/-- Histories and rings agree after every step. -/
theorem MailInv.step {x y : System} {i : Input} {c : ℕ} {g : Log} (h : MailInv x.kernel g)
    (hc : x.kernel.currentTask = some c) (hs : step x i = some y) :
    MailInv y.kernel (g.record x i y) := by
  obtain ⟨k, hk, hf⟩ := step_finish hs
  have hm := (h.served hc (serve_cases hk)).sameTable hf.sameTable
  rwa [Log.settle, ← hf.sameTable.numTasks] at hm

theorem Creation.ring {s : Kernel} {wantPid : ℕ} {res : ℤ × Kernel} (h : Creation s wantPid res)
    (hs : MailInv s .empty) : MailInv res.2 .empty := by
  cases h with
  | failed m => exact hs
  | @added m reuse kstack pml4 la cp hn hr hk hp =>
    intro j
    simp only [addTask, Kernel.setTask_apply]
    split
    · exact ⟨⟨Nat.zero_le _, Nat.succ_pos 15, Nat.succ_pos 15, rfl⟩, rfl⟩
    · exact hs j

theorem Created.mailInv {s : Kernel} (h : Created s) : MailInv s .empty := by
  induction h with
  | init m =>
    intro i
    simp only [initialKernel, taskInit]
    split <;> exact ⟨⟨Nat.zero_le _, Nat.succ_pos 15, Nat.succ_pos 15, rfl⟩, rfl⟩
  | create _ hc ih => exact (taskCreate_creation hc).ring ih

theorem MailInv.start {s : Kernel} (h : MailInv s .empty) (hn : 0 < s.numTasks) :
    MailInv (schedulerStart s).kernel .empty := by
  simp only [schedulerStart, if_neg hn.ne']
  exact h.congr fun j => setState_ring s 0 j .running

end Mukrn
