import Mukrn.Table.Mailbox

/-! Interrupts inside the mailbox calls. System calls run with interrupts enabled, so a keyboard
interrupt may arrive between two statements of `sys_send` or `sys_recv`. The calls are taken apart
into their statements on the task they work on. -/
namespace Mukrn
open RingBuffer

/-- What a send is called with, and the pid of its caller. -/
structure SendArgs where
  pid : ℕ
  type : ℕ
  len : ℕ
  data : ℕ → UInt8

namespace SendArgs

/-- The length that is stored. -/
def length (a : SendArgs) : ℕ := if ipcMaxData < a.len then ipcMaxData else a.len

def message (a : SendArgs) : Message := ⟨a.pid, a.type, (List.range a.length).map a.data⟩

/-- The slot after all fields have been written over the old contents `m`. -/
def slot (a : SendArgs) (m : IpcMsg) : IpcMsg where
  senderPid := a.pid
  type := a.type
  length := a.length
  data j := if j < a.length then a.data j else m.data j

end SendArgs

/-- The statement of `sys_send` that is next. From `sender` on the slot is fixed. -/
inductive SendPoint where
  | check
  | slot
  | sender (k : ℕ)
  | type (k : ℕ)
  | length (k : ℕ)
  | copy (k i : ℕ)
  | advance
  | count
  | wake
  | done (result : ℤ)
  deriving DecidableEq, Repr

/-- The statement of `sys_recv` that is next. -/
inductive RecvPoint where
  | check
  | source
  | sender (k : ℕ)
  | type (k : ℕ)
  | length (k : ℕ)
  | copy (k i : ℕ)
  | tail
  | count
  | done (result : ℤ)
  deriving DecidableEq, Repr

namespace Task

def setSlot (t : Task) (k : ℕ) (m : IpcMsg) : Task :=
  { t with ipcQueue := Function.update t.ipcQueue k m }

def advanceHead (t : Task) : Task := { t with ipcHead := (t.ipcHead + 1) % ipcQueueSize }

def advanceTail (t : Task) : Task := { t with ipcTail := (t.ipcTail + 1) % ipcQueueSize }

def countUp (t : Task) : Task := { t with ipcCount := t.ipcCount + 1 }

def countDown (t : Task) : Task := { t with ipcCount := t.ipcCount - 1 }

def wake (t : Task) : Task := { t with state := if t.state = .blocked then .ready else t.state }

/-- `sys_send` to this task without an interrupt. -/
def send (t : Task) (a : SendArgs) : Task :=
  if ipcQueueSize ≤ t.ipcCount then t else t.enqueue a.pid a.type a.length a.data

/-- `sys_recv` by this task without an interrupt. -/
def recv (t : Task) : Task := if t.ipcCount = 0 then t else t.advanceTail.countDown

/-- The keyboard interrupt, with this task registered for it. -/
def key (t : Task) (sc : UInt8) : Task :=
  if t.ipcCount < ipcQueueSize then t.enqueue 0 0 1 fun _ => sc else t

end Task

/-- One statement of `sys_send`. The loop reads the stored length again each time. -/
def sendStep (a : SendArgs) : Task × SendPoint → Task × SendPoint
  | (t, .check) => (t, if ipcQueueSize ≤ t.ipcCount then .done (-1) else .slot)
  | (t, .slot) => (t, .sender t.ipcHead)
  | (t, .sender k) => (t.setSlot k { t.ipcQueue k with senderPid := a.pid }, .type k)
  | (t, .type k) => (t.setSlot k { t.ipcQueue k with type := a.type }, .length k)
  | (t, .length k) => (t.setSlot k { t.ipcQueue k with length := a.length }, .copy k 0)
  | (t, .copy k i) =>
    if i < (t.ipcQueue k).length then
      (t.setSlot k { t.ipcQueue k with data := Function.update (t.ipcQueue k).data i (a.data i) },
        .copy k (i + 1))
    else (t, .advance)
  | (t, .advance) => (t.advanceHead, .count)
  | (t, .count) => (t.countUp, .wake)
  | (t, .wake) => (t.wake, .done 0)
  | (t, .done r) => (t, .done r)

/-- One statement of `sys_recv`; the second component is the caller's buffer. -/
def recvStep : Task × IpcMsg × RecvPoint → Task × IpcMsg × RecvPoint
  | (t, out, .check) => (t, out, if t.ipcCount = 0 then .done (-1) else .source)
  | (t, out, .source) => (t, out, .sender t.ipcTail)
  | (t, out, .sender k) => (t, { out with senderPid := (t.ipcQueue k).senderPid }, .type k)
  | (t, out, .type k) => (t, { out with type := (t.ipcQueue k).type }, .length k)
  | (t, out, .length k) => (t, { out with length := (t.ipcQueue k).length }, .copy k 0)
  | (t, out, .copy k i) =>
    if i < (t.ipcQueue k).length then
      (t, { out with data := Function.update out.data i ((t.ipcQueue k).data i) }, .copy k (i + 1))
    else (t, out, .tail)
  | (t, out, .tail) => (t.advanceTail, out, .count)
  | (t, out, .count) => (t.countDown, out, .done 0)
  | (t, out, .done r) => (t, out, .done r)

section Atomic

variable {s : Kernel} {i : ℕ}

/-- The calls and the interrupt without interleaving are those of the kernel. -/
theorem sysSend_task {targetPid type data len : ℕ} {bytes : List UInt8}
    (hi : s.findLive targetPid = some i)
    (hb : readUserBytes s.machine data (if ipcMaxData < len then ipcMaxData else len) =
      some bytes) :
    ∃ r, sysSend s targetPid type data len = some (r, s.setTask i ((s.tasks i).send
      ⟨s.currentPid, type, len, fun k => bytes.getD k 0⟩)) := by
  by_cases hc : ipcQueueSize ≤ (s.tasks i).ipcCount
  · refine ⟨-1, ?_⟩
    simp only [sysSend, hi, Task.send, if_pos hc]
    rw [Kernel.setTask, Function.update_eq_self]
  · refine ⟨0, ?_⟩
    simp only [sysSend, hi, Task.send, if_neg hc, hb, Option.map_some]
    rfl

theorem sysRecv_task {msg : ℕ} {res : ℤ × Kernel} (hi : s.currentTask = some i)
    (h : sysRecv s msg = some res) : res.2.tasks i = (s.tasks i).recv := by
  unfold sysRecv at h
  split at h
  next hn => cases hi.symm.trans hn
  next c hc =>
    obtain rfl := Option.some.inj (hi.symm.trans hc)
    by_cases h0 : (s.tasks i).ipcCount = 0
    · rw [if_pos h0] at h
      obtain rfl := Option.some.inj h
      exact (if_pos h0).symm
    · rw [if_neg h0] at h
      obtain ⟨m, -, rfl⟩ := Option.map_eq_some_iff.mp h
      rw [Task.recv, if_neg h0, Kernel.setTask_apply, if_pos rfl]
      rfl

theorem keyboardIrq_task {sc : UInt8} (hi : s.irqHandlers 1 = some i) (hlt : i < maxTasks)
    (hl : s.live i) : keyboardIrq s sc = s.setTask i ((s.tasks i).key sc) := by
  by_cases hc : (s.tasks i).ipcCount < ipcQueueSize
  · simp only [keyboardIrq, hi, Task.key, if_pos hc, if_pos (And.intro hlt (And.intro hl hc))]
  · simp only [keyboardIrq, hi, Task.key, if_neg hc, if_neg fun h : _ ∧ _ ∧ _ => hc h.2.2]
    rw [Kernel.setTask, Function.update_eq_self]

end Atomic

/-- The statements from `x` on lead to `y`. -/
def Completes {σ : Type*} (step : σ → σ) (x y : σ) : Prop := ∃ m, step^[m] x = y

theorem Completes.refl {σ : Type*} (step : σ → σ) (x : σ) : Completes step x x := ⟨0, rfl⟩

theorem Completes.head {σ : Type*} {step : σ → σ} {x x' y : σ} (hx : step x = x')
    (h : Completes step x' y) : Completes step x y := by
  obtain ⟨m, hm⟩ := h
  refine ⟨m + 1, ?_⟩
  rw [Function.iterate_succ_apply, hx, hm]

/-- What holds at the start and is kept by each statement holds after any number of them. -/
theorem iterate_invariant {σ : Type*} {step : σ → σ} {P : σ → Prop} {x : σ} (h0 : P x)
    (hstep : ∀ y, P y → P (step y)) (n : ℕ) : P (step^[n] x) := by
  induction n with
  | zero => exact h0
  | succ n ih =>
    rw [Function.iterate_succ_apply']
    exact hstep _ ih

section Send

variable {a : SendArgs} {t : Task} {k i : ℕ}

@[simp] theorem Task.setSlot_self (t : Task) (k : ℕ) (m : IpcMsg) :
    (t.setSlot k m).ipcQueue k = m :=
  Function.update_self ..

@[simp] theorem Task.setSlot_setSlot (t : Task) (k : ℕ) (m m' : IpcMsg) :
    (t.setSlot k m).setSlot k m' = t.setSlot k m' := by
  simp only [setSlot, Function.update_idem]

theorem Task.setSlot_same (t : Task) (k : ℕ) : t.setSlot k (t.ipcQueue k) = t := by
  simp only [setSlot, Function.update_eq_self]

/-- The last three statements. -/
def Task.publish (t : Task) : Task := t.advanceHead.countUp.wake

theorem Task.ring_setSlot (t : Task) (k : ℕ) (m : IpcMsg) :
    (t.setSlot k m).ring = { t.ring with slots := Function.update t.ring.slots k m } := rfl

theorem Task.ring_publish (t : Task) :
    t.publish.ring = { t.ring with
      head := (t.ring.head + 1) % ipcQueueSize
      count := t.ring.count + 1 } := rfl

theorem Task.enqueue_eq (t : Task) (a : SendArgs) :
    t.enqueue a.pid a.type a.length a.data =
      (t.setSlot t.ipcHead (a.slot (t.ipcQueue t.ipcHead))).publish := rfl

theorem send_advance (a : SendArgs) (t : Task) :
    Completes (sendStep a) (t, .advance) (t.publish, .done 0) :=
  .head rfl (.head rfl (.head rfl (.refl ..)))

/-- The copy loop from index `i` on. -/
theorem send_copy (a : SendArgs) (t : Task) (k i : ℕ) :
    Completes (sendStep a) (t, .copy k i) ((t.setSlot k { t.ipcQueue k with
      data := fun j => if i ≤ j ∧ j < (t.ipcQueue k).length then a.data j
        else (t.ipcQueue k).data j }).publish, .done 0) := by
  induction hn : (t.ipcQueue k).length - i generalizing t i with
  | zero =>
    have hi : ¬ i < (t.ipcQueue k).length := by omega
    have hdata : (fun j => if i ≤ j ∧ j < (t.ipcQueue k).length then a.data j
        else (t.ipcQueue k).data j) = (t.ipcQueue k).data := by
      funext j
      exact if_neg (by omega)
    rw [hdata]
    change Completes _ _ ((t.setSlot k (t.ipcQueue k)).publish, _)
    rw [t.setSlot_same]
    exact .head (if_neg hi) (send_advance a t)
  | succ n ih =>
    have hi : i < (t.ipcQueue k).length := by omega
    refine .head (if_pos hi) ?_
    have hrest := ih (t.setSlot k { t.ipcQueue k with
      data := Function.update (t.ipcQueue k).data i (a.data i) }) (i + 1)
      (by rw [Task.setSlot_self]; dsimp only; omega)
    simp only [Task.setSlot_self, Task.setSlot_setSlot] at hrest
    convert hrest using 6
    rename_i j
    by_cases hj : j = i
    · subst hj
      simp [hi]
    · have hle : i ≤ j ↔ i + 1 ≤ j := by omega
      simp only [hle, Function.update_of_ne hj]

theorem send_length (a : SendArgs) (t : Task) (k : ℕ) :
    Completes (sendStep a) (t, .length k) ((t.setSlot k { a.slot (t.ipcQueue k) with
      senderPid := (t.ipcQueue k).senderPid, type := (t.ipcQueue k).type }).publish, .done 0) := by
  have hcopy := send_copy a (t.setSlot k { t.ipcQueue k with length := a.length }) k 0
  simp only [Task.setSlot_self, Task.setSlot_setSlot, Nat.zero_le, true_and] at hcopy
  exact .head rfl hcopy

theorem send_type (a : SendArgs) (t : Task) (k : ℕ) :
    Completes (sendStep a) (t, .type k) ((t.setSlot k { a.slot (t.ipcQueue k) with
      senderPid := (t.ipcQueue k).senderPid }).publish, .done 0) := by
  have hlength := send_length a (t.setSlot k { t.ipcQueue k with type := a.type }) k
  simp only [Task.setSlot_self, Task.setSlot_setSlot] at hlength
  exact .head rfl hlength

theorem send_sender (a : SendArgs) (t : Task) (k : ℕ) :
    Completes (sendStep a) (t, .sender k)
      ((t.setSlot k (a.slot (t.ipcQueue k))).publish, .done 0) := by
  have htype := send_type a (t.setSlot k { t.ipcQueue k with senderPid := a.pid }) k
  simp only [Task.setSlot_self, Task.setSlot_setSlot] at htype
  exact .head rfl htype

/-- The statements of a send together are `sys_send`. -/
theorem send_check (a : SendArgs) (t : Task) :
    ∃ r, Completes (sendStep a) (t, .check) (t.send a, .done r) := by
  by_cases hc : ipcQueueSize ≤ t.ipcCount
  · have hstep : sendStep a (t, .check) = (t, .done (-1)) := by simp only [sendStep, if_pos hc]
    rw [Task.send, if_pos hc]
    exact ⟨-1, .head hstep (.refl ..)⟩
  · have hstep : sendStep a (t, .check) = (t, .slot) := by simp only [sendStep, if_neg hc]
    rw [Task.send, if_neg hc]
    exact ⟨0, .head hstep (.head rfl (send_sender a t t.ipcHead))⟩

/-- Where a send to `t` is before each of its statements. -/
inductive SendAt (a : SendArgs) (t : Task) : Task × SendPoint → Prop
  | check : SendAt a t (t, .check)
  | full (hc : ipcQueueSize ≤ t.ipcCount) : SendAt a t (t, .done (-1))
  | slot (hc : t.ipcCount < ipcQueueSize) : SendAt a t (t, .slot)
  | sender (hc : t.ipcCount < ipcQueueSize) : SendAt a t (t, .sender t.ipcHead)
  | type (hc : t.ipcCount < ipcQueueSize) (m : IpcMsg) :
      SendAt a t (t.setSlot t.ipcHead { m with senderPid := a.pid }, .type t.ipcHead)
  | length (hc : t.ipcCount < ipcQueueSize) (m : IpcMsg) :
      SendAt a t (t.setSlot t.ipcHead { m with senderPid := a.pid, type := a.type },
        .length t.ipcHead)
  | copy (hc : t.ipcCount < ipcQueueSize) (i : ℕ) (hi : i ≤ a.length) (data : ℕ → UInt8)
      (hd : ∀ j < i, data j = a.data j) :
      SendAt a t (t.setSlot t.ipcHead ⟨a.pid, a.type, data, a.length⟩, .copy t.ipcHead i)
  | advance (hc : t.ipcCount < ipcQueueSize) (data : ℕ → UInt8)
      (hd : ∀ j < a.length, data j = a.data j) :
      SendAt a t (t.setSlot t.ipcHead ⟨a.pid, a.type, data, a.length⟩, .advance)
  | count (hc : t.ipcCount < ipcQueueSize) (data : ℕ → UInt8)
      (hd : ∀ j < a.length, data j = a.data j) :
      SendAt a t ((t.setSlot t.ipcHead ⟨a.pid, a.type, data, a.length⟩).advanceHead, .count)
  | wake (hc : t.ipcCount < ipcQueueSize) (data : ℕ → UInt8)
      (hd : ∀ j < a.length, data j = a.data j) :
      SendAt a t ((t.setSlot t.ipcHead ⟨a.pid, a.type, data, a.length⟩).advanceHead.countUp, .wake)
  | done (hc : t.ipcCount < ipcQueueSize) (data : ℕ → UInt8)
      (hd : ∀ j < a.length, data j = a.data j) :
      SendAt a t ((t.setSlot t.ipcHead ⟨a.pid, a.type, data, a.length⟩).publish, .done 0)

theorem SendAt.step {x : Task × SendPoint} (h : SendAt a t x) : SendAt a t (sendStep a x) := by
  cases h with
  | check =>
    by_cases hc : ipcQueueSize ≤ t.ipcCount
    · simp only [sendStep, if_pos hc]
      exact .full hc
    · simp only [sendStep, if_neg hc]
      exact .slot (by omega)
  | full hc => exact .full hc
  | slot hc => exact .sender hc
  | sender hc => exact .type hc (t.ipcQueue t.ipcHead)
  | type hc m =>
    simp only [sendStep, Task.setSlot_self, Task.setSlot_setSlot]
    exact .length hc m
  | length hc m =>
    simp only [sendStep, Task.setSlot_self, Task.setSlot_setSlot]
    exact .copy hc 0 (Nat.zero_le _) m.data fun j hj => absurd hj (Nat.not_lt_zero j)
  | copy hc i hi data hd =>
    simp only [sendStep, Task.setSlot_self, Task.setSlot_setSlot]
    split
    next hlt =>
      refine .copy hc (i + 1) hlt _ ?_
      intro j hj
      by_cases hji : j = i
      · rw [hji, Function.update_self]
      · rw [Function.update_of_ne hji]
        exact hd j (by omega)
    next hge =>
      exact .advance hc data fun j hj => hd j (by omega)
  | advance hc data hd => exact .count hc data hd
  | count hc data hd => exact .wake hc data hd
  | wake hc data hd => exact .done hc data hd
  | done hc data hd => exact .done hc data hd

theorem sendAt (a : SendArgs) (t : Task) (n : ℕ) : SendAt a t ((sendStep a)^[n] (t, .check)) :=
  iterate_invariant .check (fun _ h => h.step) n

end Send

section Outcome

/-- The ring is in order and holds what one of two sequential executions leaves. -/
def Survives (t one other : Task) : Prop :=
  t.ipcCount ≤ 16 ∧ t.ipcHead = (t.ipcTail + t.ipcCount) % 16 ∧
    (t.mailbox = one.mailbox ∨ t.mailbox = other.mailbox)

def keyMessage (sc : UInt8) : Message := ⟨0, 0, [sc]⟩

/-- Where the interrupt finds the slot fixed and the head not yet advanced, it writes that slot
too; this is what the slot holds in the end. -/
def SendPoint.mixture (a : SendArgs) (sc : UInt8) : SendPoint → Message
  | .sender _ => a.message
  | .type _ => { a.message with sender := 0 }
  | .length _ => { a.message with sender := 0, type := 0 }
  | .copy _ 0 => ⟨0, 0, [a.data 0]⟩
  | _ => keyMessage sc

/-- When an interrupt before the given statement of a send does no harm. Inside the window it only
does none if, by chance, the slot after the head already holds what is missing. -/
def SendPoint.Harmless (a : SendArgs) (sc : UInt8) (t : Task) : SendPoint → Prop
  | .check | .wake | .done _ => True
  | .slot | .count => t.ipcCount ≠ 15
  | p => t.ipcCount ≠ 15 ∧
      let stale := (t.ipcQueue ((t.ipcHead + 1) % 16)).message
      (p.mixture a sc = a.message ∧ stale = keyMessage sc) ∨
        (p.mixture a sc = keyMessage sc ∧ stale = a.message)

variable {t t' one other : Task} {a : SendArgs} {sc : UInt8}

/-- Whether a mailbox survives is a matter of its ring. -/
theorem survives_congr (hr : t'.ring = t.ring) : Survives t' one other ↔ Survives t one other := by
  have hcount : t'.ipcCount = t.ipcCount := congrArg Ring.count hr
  have hhead : t'.ipcHead = t.ipcHead := congrArg Ring.head hr
  have htail : t'.ipcTail = t.ipcTail := congrArg Ring.tail hr
  simp only [Survives, Task.mailbox, hr, hcount, hhead, htail]

theorem Survives.of_valid (hv : t.ring.Valid ipcQueueSize)
    (hm : t.mailbox = one.mailbox ∨ t.mailbox = other.mailbox) : Survives t one other :=
  ⟨hv.count_le, hv.head_eq, hm⟩

/-- The interrupt is a send of one byte from nobody. -/
def keyArgs (sc : UInt8) : SendArgs := ⟨0, 0, 1, fun _ => sc⟩

theorem Task.key_eq (t : Task) (sc : UInt8) : t.key sc = t.send (keyArgs sc) := by
  by_cases hc : t.ipcCount < ipcQueueSize
  · rw [Task.key, Task.send, if_pos hc, if_neg (Nat.not_le.mpr hc)]
    rfl
  · rw [Task.key, Task.send, if_neg hc, if_pos (Nat.not_lt.mp hc)]

theorem Task.mailbox_push {m : IpcMsg} (hv : t.ring.Valid ipcQueueSize)
    (hc : t.ipcCount < ipcQueueSize) (hr : t'.ring = t.ring.push ipcQueueSize m) :
    t'.ring.Valid ipcQueueSize ∧ t'.mailbox = t.mailbox ++ [m.message] := by
  rw [Task.mailbox, hr]
  constructor
  · exact hv.push hc
  · rw [Ring.contents_push hv hc, List.map_append]
    rfl

theorem Task.send_room (hv : t.ring.Valid ipcQueueSize) (hc : t.ipcCount < ipcQueueSize)
    (a : SendArgs) : (t.send a).ring.Valid ipcQueueSize ∧
      (t.send a).mailbox = t.mailbox ++ [a.message] ∧ (t.send a).ipcCount = t.ipcCount + 1 := by
  obtain ⟨m, hr, hm⟩ := t.enqueue_ring a.pid a.type a.length a.data
  rw [Task.send, if_neg (Nat.not_le.mpr hc)]
  obtain ⟨hv', hbox⟩ := Task.mailbox_push hv hc hr
  rw [hm] at hbox
  exact ⟨hv', hbox, rfl⟩

theorem Task.send_valid (hv : t.ring.Valid ipcQueueSize) (a : SendArgs) :
    (t.send a).ring.Valid ipcQueueSize := by
  by_cases hc : t.ipcCount < ipcQueueSize
  · exact (Task.send_room hv hc a).1
  · rw [Task.send, if_pos (Nat.not_lt.mp hc)]
    exact hv

/-- A send only depends on the ring, up to bytes that do not count. -/
theorem Task.send_mailbox_congr (hv : t.ring.Valid ipcQueueSize) (hv' : t'.ring.Valid ipcQueueSize)
    (hm : t'.mailbox = t.mailbox) (a : SendArgs) : (t'.send a).mailbox = (t.send a).mailbox := by
  have hcount : t'.ipcCount = t.ipcCount := by
    have hlen := congrArg List.length hm
    rwa [Task.mailbox, Task.mailbox, List.length_map, List.length_map, Ring.length_contents,
      Ring.length_contents] at hlen
  by_cases hc : t.ipcCount < ipcQueueSize
  · rw [(Task.send_room hv hc a).2.1, (Task.send_room hv' (hcount ▸ hc) a).2.1, hm]
  · rw [Task.send, Task.send, if_pos (by omega), if_pos (by omega), hm]

/-- The end of a send whose slot has been written twice. -/
theorem survives_window (hv : t.ring.Valid ipcQueueSize) (hc : t.ipcCount < ipcQueueSize)
    (m : IpcMsg) :
    Survives (t.setSlot t.ipcHead m).publish.publish ((t.send a).key sc) ((t.key sc).send a) ↔
      t.ipcCount ≠ 15 ∧
        ((m.message = a.message ∧ (t.ipcQueue ((t.ipcHead + 1) % 16)).message = keyMessage sc) ∨
          (m.message = keyMessage sc ∧
            (t.ipcQueue ((t.ipcHead + 1) % 16)).message = a.message)) := by
  have hsize : ipcQueueSize = 16 := rfl
  by_cases h15 : t.ipcCount = 15
  · constructor
    · rintro ⟨hle, -⟩
      have hcount : (t.setSlot t.ipcHead m).publish.publish.ipcCount = t.ipcCount + 2 := rfl
      omega
    · rintro ⟨hn, -⟩
      exact absurd h15 hn
  have hring : (t.setSlot t.ipcHead m).publish.publish.ring =
      (t.ring.push ipcQueueSize m).push ipcQueueSize
        (t.ring.slots ((t.ring.head + 1) % ipcQueueSize)) := by
    have hroom : t.ring.count + 2 ≤ ipcQueueSize := by
      change t.ipcCount + 2 ≤ ipcQueueSize
      omega
    rw [Task.ring_publish, Task.ring_publish, Task.ring_setSlot]
    exact Ring.push_stale hv hroom
  have hkey : (keyArgs sc).message = keyMessage sc := rfl
  -- the two sequential orders
  obtain ⟨hv1, hb1, hc1⟩ := Task.send_room hv hc a
  have hone := (Task.send_room hv1 (by omega) (keyArgs sc)).2.1
  obtain ⟨hv2, hb2, hc2⟩ := Task.send_room hv hc (keyArgs sc)
  have hother := (Task.send_room hv2 (by omega) a).2.1
  have hvp := hv.push (a := m) hc
  have hcp : (t.ring.push ipcQueueSize m).count < ipcQueueSize := by
    change t.ipcCount + 1 < ipcQueueSize
    omega
  have hbox : (t.setSlot t.ipcHead m).publish.publish.mailbox = t.mailbox ++ [m.message] ++
      [(t.ipcQueue ((t.ipcHead + 1) % 16)).message] := by
    rw [Task.mailbox, hring, Ring.contents_push hvp hcp, Ring.contents_push hv hc, List.map_append,
      List.map_append]
    rfl
  rw [Task.key_eq, Task.key_eq]
  constructor
  · rintro ⟨-, -, hm⟩
    refine ⟨h15, ?_⟩
    rw [hone, hother, hb1, hb2, hbox, hkey] at hm
    simpa [List.append_assoc] using hm
  · rintro ⟨-, hm⟩
    apply Survives.of_valid
    · rw [hring]
      exact hvp.push hcp
    · rw [hone, hother, hb1, hb2, hbox, hkey]
      simpa [List.append_assoc] using hm

/-- What the interrupt leaves in the slot that a send is writing. -/
private theorem key_setSlot (hc : t.ipcCount < ipcQueueSize) (m : IpcMsg) :
    (t.setSlot t.ipcHead m).key sc =
      (t.setSlot t.ipcHead ((keyArgs sc).slot m)).publish := by
  have hc' : (t.setSlot t.ipcHead m).ipcCount < ipcQueueSize := hc
  have henq := (t.setSlot t.ipcHead m).enqueue_eq (keyArgs sc)
  have hhead : (t.setSlot t.ipcHead m).ipcHead = t.ipcHead := rfl
  rw [hhead, Task.setSlot_self, Task.setSlot_setSlot] at henq
  rw [Task.key, if_pos hc']
  exact henq

private theorem publish_setSlot (t : Task) (k : ℕ) (m m' : IpcMsg) :
    ((t.setSlot k m).publish).setSlot k m' = (t.setSlot k m').publish := by
  simp only [Task.publish, Task.advanceHead, Task.countUp, Task.wake, Task.setSlot,
    Function.update_idem]
  rfl

private theorem publish_self (t : Task) (k : ℕ) (m : IpcMsg) :
    (t.setSlot k m).publish.ipcQueue k = m := t.setSlot_self k m

/-- The message of a slot that holds the arguments of a send. -/
private theorem slot_message {data : ℕ → UInt8} (hd : ∀ j < a.length, data j = a.data j) :
    (IpcMsg.mk a.pid a.type data a.length).message = a.message := by
  simp only [IpcMsg.message, SendArgs.message, Message.mk.injEq, true_and]
  apply List.map_congr_left
  intro j hj
  exact hd j (List.mem_range.mp hj)

/-- After the count has been raised the send is over as far as the ring is concerned. -/
private theorem survives_sent {m : IpcMsg} (hv : t.ring.Valid ipcQueueSize)
    (hc : t.ipcCount < ipcQueueSize) (hr : t'.ring = t.ring.push ipcQueueSize m)
    (hm : m.message = a.message) : Survives (t'.key sc) ((t.send a).key sc) other := by
  obtain ⟨hv', hbox⟩ := Task.mailbox_push hv hc hr
  obtain ⟨hvs, hbs, -⟩ := Task.send_room hv hc a
  rw [Task.key_eq, Task.key_eq]
  apply Survives.of_valid (Task.send_valid hv' _)
  left
  apply Task.send_mailbox_congr hvs hv'
  rw [hbox, hbs, hm]

private theorem message_slot (a : SendArgs) (m : IpcMsg) : (a.slot m).message = a.message :=
  slot_message fun _ hj => if_pos hj

/-- An interrupt while the slot is being written: `m` is what the slot holds in the end. -/
private theorem send_window {p : SendPoint} {q m : IpcMsg} (hv : t.ring.Valid ipcQueueSize)
    (hc : t.ipcCount < ipcQueueSize)
    (hrest : Completes (sendStep a) ((t.setSlot t.ipcHead ((keyArgs sc).slot q)).publish, p)
      (((t.setSlot t.ipcHead ((keyArgs sc).slot q)).publish.setSlot t.ipcHead m).publish, .done 0))
    (hmix : m.message = p.mixture a sc)
    (hp : p.Harmless a sc t ↔ t.ipcCount ≠ 15 ∧
      ((p.mixture a sc = a.message ∧
          (t.ipcQueue ((t.ipcHead + 1) % 16)).message = keyMessage sc) ∨
        (p.mixture a sc = keyMessage sc ∧
          (t.ipcQueue ((t.ipcHead + 1) % 16)).message = a.message))) :
    ∃ t' r, Completes (sendStep a) ((t.setSlot t.ipcHead q).key sc, p) (t', .done r) ∧
      (Survives t' ((t.send a).key sc) ((t.key sc).send a) ↔ p.Harmless a sc t) := by
  rw [publish_setSlot] at hrest
  rw [key_setSlot hc]
  refine ⟨_, 0, hrest, ?_⟩
  rw [survives_window hv hc, hmix, hp]

theorem send_interrupted {x : Task × SendPoint} (hv : t.ring.Valid ipcQueueSize)
    (hx : SendAt a t x) (sc : UInt8) : ∃ t' r,
    Completes (sendStep a) (x.1.key sc, x.2) (t', .done r) ∧
      (Survives t' ((t.send a).key sc) ((t.key sc).send a) ↔ x.2.Harmless a sc t) := by
  have hsize : ipcQueueSize = 16 := rfl
  cases hx with
  | check =>
    obtain ⟨r, hr⟩ := send_check a (t.key sc)
    refine ⟨_, r, hr, iff_of_true ?_ trivial⟩
    apply Survives.of_valid _ (.inr rfl)
    rw [Task.key_eq]
    exact Task.send_valid (Task.send_valid hv _) a
  | full hc =>
    refine ⟨_, -1, .refl .., iff_of_true ?_ trivial⟩
    have hsend : t.send a = t := if_pos hc
    rw [hsend]
    apply Survives.of_valid _ (.inl rfl)
    rw [Task.key_eq]
    exact Task.send_valid hv _
  | slot hc =>
    refine ⟨_, 0, .head rfl (send_sender a (t.key sc) _), ?_⟩
    rw [← Task.enqueue_eq]
    obtain ⟨hv', -, hc'⟩ := Task.send_room hv hc (keyArgs sc)
    rw [← Task.key_eq] at hv' hc'
    by_cases h15 : t.ipcCount = 15
    · refine iff_of_false ?_ (fun hn => hn h15)
      rintro ⟨hle, -⟩
      have hcount : ((t.key sc).enqueue a.pid a.type a.length a.data).ipcCount =
        (t.key sc).ipcCount + 1 := rfl
      omega
    · refine iff_of_true ?_ h15
      have hsend : (t.key sc).send a = (t.key sc).enqueue a.pid a.type a.length a.data :=
        if_neg (by omega)
      rw [← hsend]
      exact Survives.of_valid (Task.send_valid hv' a) (.inr rfl)
  | sender hc =>
    have hrest := send_sender a ((t.setSlot t.ipcHead
      ((keyArgs sc).slot (t.ipcQueue t.ipcHead))).publish) t.ipcHead
    have hw := send_window hv hc hrest (message_slot a _) Iff.rfl
    rwa [t.setSlot_same] at hw
  | type hc m =>
    have hrest := send_type a ((t.setSlot t.ipcHead ((keyArgs sc).slot
      { m with senderPid := a.pid })).publish) t.ipcHead
    rw [publish_self] at hrest
    apply send_window hv hc hrest _ Iff.rfl
    exact congrArg (fun s : Message => { s with sender := 0 }) (message_slot a _)
  | length hc m =>
    have hrest := send_length a ((t.setSlot t.ipcHead ((keyArgs sc).slot
      { m with senderPid := a.pid, type := a.type })).publish) t.ipcHead
    rw [publish_self] at hrest
    apply send_window hv hc hrest _ Iff.rfl
    exact congrArg (fun s : Message => { s with sender := 0, type := 0 }) (message_slot a _)
  | copy hc i hi data hd =>
    have hrest := send_copy a ((t.setSlot t.ipcHead ((keyArgs sc).slot
      ⟨a.pid, a.type, data, a.length⟩)).publish) t.ipcHead i
    rw [publish_self] at hrest
    cases i with
    | zero => exact send_window hv hc hrest rfl Iff.rfl
    | succ i =>
      refine send_window hv hc hrest ?_ Iff.rfl
      simp [IpcMsg.message, SendPoint.mixture, keyMessage, keyArgs, SendArgs.slot, SendArgs.length,
        ipcMaxData]
  | advance hc data hd =>
    have hrest := send_advance a ((t.setSlot t.ipcHead ((keyArgs sc).slot
      ⟨a.pid, a.type, data, a.length⟩)).publish)
    refine send_window hv hc (m := (keyArgs sc).slot ⟨a.pid, a.type, data, a.length⟩) ?_ rfl Iff.rfl
    rw [publish_setSlot]
    exact hrest
  | count hc data hd =>
    refine ⟨_, 0, .head rfl (.head rfl (.refl ..)), ?_⟩
    generalize hm : IpcMsg.mk a.pid a.type data a.length = m
    have hmsg : m.message = a.message := hm ▸ slot_message hd
    have hkey : (t.setSlot t.ipcHead m).advanceHead.key sc =
        (t.setSlot t.ipcHead m).advanceHead.enqueue 0 0 1 fun _ => sc := if_pos hc
    by_cases h15 : t.ipcCount = 15
    · refine iff_of_false ?_ (fun hn => hn h15)
      rintro ⟨hle, -⟩
      rw [hkey] at hle
      change t.ipcCount + 1 + 1 ≤ 16 at hle
      omega
    · refine iff_of_true ?_ h15
      have hsent : (t.setSlot t.ipcHead m).publish.ring = t.ring.push ipcQueueSize m := rfl
      have hc' : (t.setSlot t.ipcHead m).publish.ipcCount < ipcQueueSize := by
        change t.ipcCount + 1 < ipcQueueSize
        omega
      have hring : ((t.setSlot t.ipcHead m).advanceHead.key sc).countUp.wake.ring =
          ((t.setSlot t.ipcHead m).publish.key sc).ring := by
        rw [hkey, Task.key, if_pos hc']
        rfl
      rw [survives_congr hring]
      exact survives_sent hv hc hsent hmsg
  | wake hc data hd =>
    refine ⟨_, 0, .head rfl (.refl ..), iff_of_true ?_ trivial⟩
    have hs :
      Survives (((t.setSlot t.ipcHead ⟨a.pid, a.type, data, a.length⟩).advanceHead.countUp).key sc)
      ((t.send a).key sc) ((t.key sc).send a) := survives_sent hv hc rfl (slot_message hd)
    exact (survives_congr rfl).mpr hs
  | done hc data hd =>
    refine ⟨_, 0, .refl .., iff_of_true ?_ trivial⟩
    exact survives_sent hv hc rfl (slot_message hd)

end Outcome

section Recv

variable {t : Task} {out : IpcMsg} {k i : ℕ}

theorem recv_tail (t : Task) (out : IpcMsg) :
    Completes recvStep (t, out, .tail) (t.advanceTail.countDown, out, .done 0) :=
  .head rfl (.head rfl (.refl ..))

/-- A buffer into which all fields and bytes of a slot have been copied. -/
private theorem copied_message {out m : IpcMsg} {i : ℕ} (hs : out.senderPid = m.senderPid)
    (ht : out.type = m.type) (hl : out.length = m.length) (hd : ∀ j < i, out.data j = m.data j)
    (hi : ¬ i < m.length) : out.message = m.message := by
  simp only [IpcMsg.message, hs, ht, hl, Message.mk.injEq, true_and]
  apply List.map_congr_left
  intro j hj
  have hj := List.mem_range.mp hj
  exact hd j (by omega)

/-- The copy loop from index `i` on, when the bytes before have been copied. -/
theorem recv_copy (t : Task) (k : ℕ) (out : IpcMsg) {i : ℕ}
    (hs : out.senderPid = (t.ipcQueue k).senderPid) (ht : out.type = (t.ipcQueue k).type)
    (hl : out.length = (t.ipcQueue k).length) (hd : ∀ j < i, out.data j = (t.ipcQueue k).data j) :
    ∃ out', Completes recvStep (t, out, .copy k i) (t.advanceTail.countDown, out', .done 0) ∧
      out'.message = (t.ipcQueue k).message := by
  induction hn : (t.ipcQueue k).length - i generalizing out i with
  | zero =>
    have hi : ¬ i < (t.ipcQueue k).length := by omega
    exact ⟨out, .head (if_neg hi) (recv_tail t out), copied_message hs ht hl hd hi⟩
  | succ n ih =>
    have hi : i < (t.ipcQueue k).length := by omega
    have hd' : ∀ j < i + 1, Function.update out.data i ((t.ipcQueue k).data i) j =
        (t.ipcQueue k).data j := by
      intro j hj
      by_cases hji : j = i
      · rw [hji, Function.update_self]
      · rw [Function.update_of_ne hji]
        exact hd j (by omega)
    obtain ⟨out', hc, hm⟩ := ih { out with
      data := Function.update out.data i ((t.ipcQueue k).data i) } hs ht hl hd' (by omega)
    exact ⟨out', .head (if_pos hi) hc, hm⟩

/-- Where a receive of `t` is before each of its statements. -/
inductive RecvAt (t : Task) : Task × IpcMsg × RecvPoint → Prop
  | check (out : IpcMsg) : RecvAt t (t, out, .check)
  | empty (out : IpcMsg) (hc : t.ipcCount = 0) : RecvAt t (t, out, .done (-1))
  | source (out : IpcMsg) (hc : t.ipcCount ≠ 0) : RecvAt t (t, out, .source)
  | sender (out : IpcMsg) (hc : t.ipcCount ≠ 0) : RecvAt t (t, out, .sender t.ipcTail)
  | type (out : IpcMsg) (hc : t.ipcCount ≠ 0)
      (hs : out.senderPid = (t.ipcQueue t.ipcTail).senderPid) :
      RecvAt t (t, out, .type t.ipcTail)
  | length (out : IpcMsg) (hc : t.ipcCount ≠ 0)
      (hs : out.senderPid = (t.ipcQueue t.ipcTail).senderPid)
      (ht : out.type = (t.ipcQueue t.ipcTail).type) : RecvAt t (t, out, .length t.ipcTail)
  | copy (out : IpcMsg) (i : ℕ) (hc : t.ipcCount ≠ 0)
      (hs : out.senderPid = (t.ipcQueue t.ipcTail).senderPid)
      (ht : out.type = (t.ipcQueue t.ipcTail).type)
      (hl : out.length = (t.ipcQueue t.ipcTail).length)
      (hd : ∀ j < i, out.data j = (t.ipcQueue t.ipcTail).data j) :
      RecvAt t (t, out, .copy t.ipcTail i)
  | tail (out : IpcMsg) (hc : t.ipcCount ≠ 0)
      (hm : out.message = (t.ipcQueue t.ipcTail).message) : RecvAt t (t, out, .tail)
  | count (out : IpcMsg) (hc : t.ipcCount ≠ 0)
      (hm : out.message = (t.ipcQueue t.ipcTail).message) :
      RecvAt t (t.advanceTail, out, .count)
  | done (out : IpcMsg) (hc : t.ipcCount ≠ 0)
      (hm : out.message = (t.ipcQueue t.ipcTail).message) :
      RecvAt t (t.advanceTail.countDown, out, .done 0)

theorem RecvAt.step {x : Task × IpcMsg × RecvPoint} (h : RecvAt t x) : RecvAt t (recvStep x) := by
  cases h with
  | check out =>
    by_cases hc : t.ipcCount = 0
    · simp only [recvStep, if_pos hc]
      exact .empty out hc
    · simp only [recvStep, if_neg hc]
      exact .source out hc
  | empty out hc => exact .empty out hc
  | source out hc => exact .sender out hc
  | sender out hc => exact .type _ hc rfl
  | type out hc hs => exact .length _ hc hs rfl
  | length out hc hs ht =>
    exact .copy _ 0 hc hs ht rfl fun j hj => absurd hj (Nat.not_lt_zero j)
  | copy out i hc hs ht hl hd =>
    simp only [recvStep]
    split
    · refine .copy _ (i + 1) hc hs ht hl ?_
      intro j hj
      by_cases hji : j = i
      · rw [hji]
        exact Function.update_self ..
      · exact (Function.update_of_ne hji ..).trans (hd j (by omega))
    next hi => exact .tail out hc (copied_message hs ht hl hd hi)
  | tail out hc hm => exact .count out hc hm
  | count out hc hm => exact .done out hc hm
  | done out hc hm => exact .done out hc hm

theorem recvAt (t : Task) (out : IpcMsg) (n : ℕ) : RecvAt t (recvStep^[n] (t, out, .check)) :=
  iterate_invariant (.check out) (fun _ h => h.step) n

theorem Task.recv_valid (hv : t.ring.Valid ipcQueueSize) : t.recv.ring.Valid ipcQueueSize := by
  by_cases hc : t.ipcCount = 0
  · rw [Task.recv, if_pos hc]
    exact hv
  · rw [Task.recv, if_neg hc]
    exact hv.pop (Nat.pos_of_ne_zero hc)

/-- The interrupt leaves a waiting message alone. -/
theorem Task.key_waiting (hv : t.ring.Valid ipcQueueSize) (sc : UInt8) :
    (t.key sc).ipcTail = t.ipcTail ∧ (t.key sc).ipcCount ≠ 0 ∧
      (t.ipcCount ≠ 0 → (t.key sc).ipcQueue t.ipcTail = t.ipcQueue t.ipcTail) := by
  have hsize : ipcQueueSize = 16 := rfl
  by_cases hc : t.ipcCount < ipcQueueSize
  · rw [Task.key, if_pos hc]
    refine ⟨rfl, Nat.succ_ne_zero _, ?_⟩
    intro h0
    apply Function.update_of_ne
    have hhead : t.ipcHead = (t.ipcTail + t.ipcCount) % 16 := hv.head_eq
    have htail : t.ipcTail < 16 := hv.tail_lt
    omega
  · rw [Task.key, if_neg hc]
    exact ⟨rfl, by omega, fun _ => rfl⟩

/-- The rest of a receive from the point where its source slot is known. -/
private theorem recv_rest (t : Task) (out : IpcMsg) (k : ℕ) : ∃ out',
    Completes recvStep (t, out, .sender k) (t.advanceTail.countDown, out', .done 0) ∧
      out'.message = (t.ipcQueue k).message := by
  obtain ⟨out', hc, hm⟩ := recv_copy t k ⟨(t.ipcQueue k).senderPid, (t.ipcQueue k).type,
    out.data, (t.ipcQueue k).length⟩ rfl rfl rfl fun j hj => absurd hj (Nat.not_lt_zero j)
  exact ⟨out', .head rfl (.head rfl (.head rfl hc)), hm⟩

theorem recv_interrupted {x : Task × IpcMsg × RecvPoint} (hv : t.ring.Valid ipcQueueSize)
    (hx : RecvAt t x) (sc : UInt8) :
    ∃ t' out' r, Completes recvStep (x.1.key sc, x.2) (t', out', .done r) ∧
      Survives t' (t.recv.key sc) (t.key sc).recv ∧
      (r = 0 → out'.message = ((t.key sc).ipcQueue t.ipcTail).message) := by
  have hsize : ipcQueueSize = 16 := rfl
  obtain ⟨htail, h0, hsame⟩ := Task.key_waiting hv sc
  have hvk : (t.key sc).ring.Valid ipcQueueSize := by
    rw [Task.key_eq]
    exact Task.send_valid hv _
  -- a receive that removes the message after the interrupt
  have hafter : Survives (t.key sc).advanceTail.countDown (t.recv.key sc) (t.key sc).recv := by
    have hrecv : (t.key sc).recv = (t.key sc).advanceTail.countDown := if_neg h0
    rw [← hrecv]
    exact Survives.of_valid (Task.recv_valid hvk) (.inr rfl)
  have hrest (out : IpcMsg) := recv_rest (t.key sc) out t.ipcTail
  cases hx with
  | check out =>
    obtain ⟨out', hc, hm⟩ := hrest out
    have hcheck : recvStep (t.key sc, out, .check) = (t.key sc, out, .source) := by
      simp only [recvStep, if_neg h0]
    have hsource : recvStep (t.key sc, out, .source) = (t.key sc, out, .sender t.ipcTail) := by
      simp only [recvStep, htail]
    exact ⟨_, out', 0, .head hcheck (.head hsource hc), hafter, fun _ => hm⟩
  | empty out hc =>
    have hrecv : t.recv = t := if_pos hc
    refine ⟨_, out, -1, .refl .., ?_, fun hr => absurd hr (by decide)⟩
    rw [hrecv]
    exact Survives.of_valid hvk (.inl rfl)
  | source out hc =>
    obtain ⟨out', hc, hm⟩ := hrest out
    have hsource : recvStep (t.key sc, out, .source) = (t.key sc, out, .sender t.ipcTail) := by
      simp only [recvStep, htail]
    exact ⟨_, out', 0, .head hsource hc, hafter, fun _ => hm⟩
  | sender out hc =>
    obtain ⟨out', hc, hm⟩ := hrest out
    exact ⟨_, out', 0, hc, hafter, fun _ => hm⟩
  | type out hc hs =>
    rw [← hsame hc] at hs
    obtain ⟨out', hc, hm⟩ := recv_copy (t.key sc) t.ipcTail ⟨out.senderPid,
      ((t.key sc).ipcQueue t.ipcTail).type, out.data, ((t.key sc).ipcQueue t.ipcTail).length⟩
      hs rfl rfl fun j hj => absurd hj (Nat.not_lt_zero j)
    exact ⟨_, out', 0, .head rfl (.head rfl hc), hafter, fun _ => hm⟩
  | length out hc hs ht =>
    rw [← hsame hc] at hs ht
    obtain ⟨out', hc, hm⟩ := recv_copy (t.key sc) t.ipcTail ⟨out.senderPid, out.type,
      out.data, ((t.key sc).ipcQueue t.ipcTail).length⟩ hs ht rfl
      fun j hj => absurd hj (Nat.not_lt_zero j)
    exact ⟨_, out', 0, .head rfl hc, hafter, fun _ => hm⟩
  | copy out i hc hs ht hl hd =>
    rw [← hsame hc] at hs ht hl hd
    obtain ⟨out', hc, hm⟩ := recv_copy (t.key sc) t.ipcTail out hs ht hl hd
    exact ⟨_, out', 0, hc, hafter, fun _ => hm⟩
  | tail out hc hm =>
    rw [← hsame hc] at hm
    exact ⟨_, out, 0, recv_tail _ out, hafter, fun _ => hm⟩
  | count out hc hm =>
    rw [← hsame hc] at hm
    refine ⟨_, out, 0, .head rfl (.refl ..), ?_, fun _ => hm⟩
    by_cases h16 : t.ipcCount < ipcQueueSize
    · have hrecv : t.recv = t.advanceTail.countDown := if_neg hc
      have hring : (t.advanceTail.key sc).countDown.ring = (t.recv.key sc).ring := by
        have hlt : t.advanceTail.ipcCount < ipcQueueSize := h16
        have hlt' : t.advanceTail.countDown.ipcCount < ipcQueueSize := by
          change t.ipcCount - 1 < ipcQueueSize
          omega
        have hcount : t.ipcCount + 1 - 1 = t.ipcCount - 1 + 1 := by omega
        rw [hrecv, Task.key, Task.key, if_pos hlt, if_pos hlt']
        exact congrArg (RingBuffer.Ring.mk _ _ _) hcount
      rw [survives_congr hring]
      apply Survives.of_valid _ (.inl rfl)
      rw [Task.key_eq]
      exact Task.send_valid (Task.recv_valid hv) _
    · have hkey : t.key sc = t := if_neg h16
      have hkey' : t.advanceTail.key sc = t.advanceTail := if_neg h16
      rw [hkey] at hafter ⊢
      rw [hkey']
      exact hafter
  | done out hc hm =>
    rw [← hsame hc] at hm
    have hrecv : t.recv = t.advanceTail.countDown := if_neg hc
    refine ⟨_, out, 0, .refl .., ?_, fun _ => hm⟩
    rw [hrecv]
    apply Survives.of_valid _ (.inl rfl)
    rw [Task.key_eq]
    exact Task.send_valid (hrecv ▸ Task.recv_valid hv) _

end Recv

/-- One keyboard interrupt between two statements of a mailbox call. A send leaves what some
sequential order leaves exactly when the point is harmless; a receive always does, and it hands
out the oldest message. -/
theorem interrupted_mailbox_iff {t : Task} (hv : t.ring.Valid ipcQueueSize) (sc : UInt8) :
    (∀ a n, ∃ t' r,
      Completes (sendStep a)
        (((sendStep a)^[n] (t, .check)).1.key sc, ((sendStep a)^[n] (t, .check)).2)
        (t', .done r) ∧
      (Survives t' ((t.send a).key sc) ((t.key sc).send a) ↔
        ((sendStep a)^[n] (t, .check)).2.Harmless a sc t)) ∧
    ∀ out n, ∃ t' out' r,
      Completes recvStep ((recvStep^[n] (t, out, .check)).1.key sc,
        (recvStep^[n] (t, out, .check)).2)
        (t', out', .done r) ∧
      Survives t' (t.recv.key sc) (t.key sc).recv ∧
      (r = 0 → out'.message = ((t.key sc).ipcQueue t.ipcTail).message) := by
  constructor
  · intro a n
    exact send_interrupted hv (sendAt a t n) sc
  · intro out n
    exact recv_interrupted hv (recvAt t out n) sc

private theorem zeroTask_valid : zeroTask.ring.Valid ipcQueueSize where
  count_le := by decide
  head_lt := by decide
  tail_lt := by decide
  head_eq := rfl

/-- An interrupt after the count has been raised. -/
theorem interrupted_mailbox_iff_sample : ∃ t : Task, ∃ a sc t' r, t.ring.Valid ipcQueueSize ∧
    Completes (sendStep a) (((sendStep a)^[9] (t, .check)).1.key sc, .wake) (t', .done r) ∧
    Survives t' ((t.send a).key sc) ((t.key sc).send a) := by
  let a : SendArgs := ⟨1, 0, 1, fun _ => 5⟩
  have hpoint : ((sendStep a)^[9] (zeroTask, .check)).2 = .wake := rfl
  obtain ⟨t', r, hc, hs⟩ := (interrupted_mailbox_iff zeroTask_valid 7).1 a 9
  rw [hpoint] at hc hs
  exact ⟨zeroTask, a, 7, t', r, zeroTask_valid, hc, hs.mpr trivial⟩

/-- An interrupt right after the slot has been chosen: both messages go to the same slot, and the
ring hands out the stale contents of the next one. -/
theorem interrupt_loses_key : ∃ t : Task, ∃ a sc n t' r, t.ring.Valid ipcQueueSize ∧
    Completes (sendStep a)
      (((sendStep a)^[n] (t, .check)).1.key sc, ((sendStep a)^[n] (t, .check)).2) (t', .done r) ∧
    ¬ Survives t' ((t.send a).key sc) ((t.key sc).send a) := by
  let a : SendArgs := ⟨1, 0, 1, fun _ => 5⟩
  have hpoint : ((sendStep a)^[2] (zeroTask, .check)).2 = .sender 0 := rfl
  obtain ⟨t', r, hc, hs⟩ := send_interrupted zeroTask_valid (sendAt a zeroTask 2) 7
  refine ⟨zeroTask, a, 7, 2, t', r, zeroTask_valid, hc, ?_⟩
  rw [hs, hpoint]
  have hstale : (zeroTask.ipcQueue ((zeroTask.ipcHead + 1) % 16)).message = ⟨0, 0, []⟩ := rfl
  rintro ⟨-, ⟨-, hkey⟩ | ⟨hmix, -⟩⟩
  · rw [hstale] at hkey
    cases hkey
  · cases congrArg Message.sender hmix

end Mukrn
