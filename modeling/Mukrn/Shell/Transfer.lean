import Mukrn.Fat32.Messages
import Mukrn.Fat32.OneFile
import Mukrn.Library.LossyQueue
import Mukrn.Table.Interrupt

/-! A file on its way from the server to the task that asked for it. The messages go through the
mailbox of that task, and the server does not look at the results of its sends. -/
namespace Mukrn.Shell
open LossyQueue RingBuffer Fat32

/-- The send call for a reply of the server with this pid. -/
def replyArgs (server : ℕ) (r : Reply) : SendArgs :=
  ⟨server, r.type, r.data.length, fun i => r.data.getD i 0⟩

/-- The replies the server has not sent yet, the task that asked, and what it has received. -/
structure Transfer where
  left : List Reply
  task : Task
  got : List Message

namespace Transfer

/-- The server sends its next reply, or the task receives. -/
def step (server : ℕ) (x : Transfer) : Turn → Transfer
  | .send =>
    match x.left with
    | [] => x
    | r :: rest => { x with left := rest, task := x.task.send (replyArgs server r) }
  | .recv =>
    if x.task.ipcCount = 0 then x
    else
      { x with
        task := x.task.recv
        got := x.got ++ [(x.task.ipcQueue x.task.ipcTail).message] }

def run (server : ℕ) (x : Transfer) (turns : List Turn) : Transfer := turns.foldl (step server) x

/-- The transfer as a queue of messages. -/
def queue (server : ℕ) (x : Transfer) : State Message :=
  ⟨x.left.map fun r => (replyArgs server r).message, x.task.mailbox, x.got⟩

variable {x : Transfer}

theorem mailbox_length (t : Task) : t.mailbox.length = t.ipcCount := by
  rw [Task.mailbox, List.length_map, Ring.length_contents]
  rfl

/-- Each turn is one of the queue. -/
theorem queue_step (server : ℕ) (hx : x.task.ring.Valid ipcQueueSize) (turn : Turn) :
    (x.step server turn).task.ring.Valid ipcQueueSize ∧
      queue server (x.step server turn) = LossyQueue.step ipcQueueSize (queue server x) turn := by
  obtain ⟨left, t, got⟩ := x
  cases turn with
  | send =>
    cases left with
    | nil => exact ⟨hx, rfl⟩
    | cons r rest =>
      have hroom : t.mailbox.length < ipcQueueSize ↔ ¬ ipcQueueSize ≤ t.ipcCount := by
        rw [mailbox_length]
        omega
      by_cases hfull : ipcQueueSize ≤ t.ipcCount
      · have hsend : t.send (replyArgs server r) = t := if_pos hfull
        simp only [step, hsend]
        refine ⟨hx, ?_⟩
        simp [queue, LossyQueue.step, hroom, hfull]
      · obtain ⟨m, hring, hm⟩ := t.enqueue_ring server r.type (replyArgs server r).length
          (replyArgs server r).data
        have hsend : (t.send (replyArgs server r)).ring = t.ring.push ipcQueueSize m := by
          rw [Task.send, if_neg hfull]
          exact hring
        have hcount : t.ring.count < ipcQueueSize := Nat.not_le.mp hfull
        have hbox : (t.send (replyArgs server r)).mailbox =
            t.mailbox ++ [(replyArgs server r).message] := by
          rw [Task.mailbox, hsend, Ring.contents_push hx hcount, List.map_append,
            List.map_singleton,
            hm]
          rfl
        simp only [step]
        refine ⟨hsend ▸ hx.push hcount, ?_⟩
        simp [queue, LossyQueue.step, hroom, hfull, hbox]
  | recv =>
    by_cases hempty : t.ipcCount = 0
    · have hbox : t.mailbox = [] := by
        apply List.eq_nil_of_length_eq_zero
        rw [mailbox_length, hempty]
      simp only [step, if_pos hempty]
      refine ⟨hx, ?_⟩
      simp [queue, LossyQueue.step, hbox]
    · have hcount : 0 < t.ring.count := Nat.pos_of_ne_zero hempty
      have hring : t.recv.ring = t.ring.pop ipcQueueSize := by
        rw [Task.recv, if_neg hempty]
        rfl
      have hbox : t.mailbox = (t.ipcQueue t.ipcTail).message :: t.recv.mailbox := by
        rw [Task.mailbox, Ring.contents_pop hcount, Nat.mod_eq_of_lt hx.tail_lt, List.map_cons,
          Task.mailbox, hring]
        rfl
      simp only [step, if_neg hempty]
      refine ⟨hring ▸ hx.pop hcount, ?_⟩
      simp [queue, LossyQueue.step, hbox]

theorem queue_run (server : ℕ) (hx : x.task.ring.Valid ipcQueueSize) (turns : List Turn) :
    queue server (x.run server turns) = LossyQueue.run ipcQueueSize (queue server x) turns := by
  induction turns generalizing x with
  | nil => rfl
  | cons turn turns ih =>
    obtain ⟨hvalid, hstep⟩ := queue_step server hx turn
    rw [run, List.foldl_cons, LossyQueue.run, List.foldl_cons, ← hstep]
    exact ih hvalid

end Transfer

/-- When the message 101 has been received, behind the messages that had been waiting, so have been
all before it and in their order. -/
def Complete (server : ℕ) (t : Task) (msgs : List Reply) (x : Transfer) : Prop :=
  ⟨server, 101, []⟩ ∈ x.got.drop t.ipcCount →
    x.got.drop t.ipcCount = (msgs.map fun r => ⟨server, r.type, r.data⟩) ++ [⟨server, 101, []⟩]

section Answers

variable {δ : Type} {D : ReliableDisk δ} {L : Layout} {s : Server δ} {req : Fat32.Request}
  {cluster size : ℕ} {l : List ℕ}

theorem replyArgs_message {server : ℕ} {r : Reply} (h : r.data.length ≤ ipcMaxData) :
    (replyArgs server r).message = ⟨server, r.type, r.data⟩ := by
  have hlen : (replyArgs server r).length = r.data.length := if_neg (Nat.not_lt.mpr h)
  rw [SendArgs.message, hlen]
  congr 1
  exact bytes_getD rfl

/-- The replies to a read request for a file. -/
theorem serve_file (spawn : ByteMemory.Mem → ℕ → Option ℕ) (hgeo : s.geo = L.toGeometry)
    (htype : req.type = 0)
    (hfile : resolvePath D.toDevice s.geo s.disk req.path = some (some (cluster, size)))
    (hl : L.Chain (L.view (D.sectors s.disk)) cluster l) :
    Fat32.serve D.toDevice spawn s req = some (.replied
      (sectorMessages size 0 (L.sectorsOf (L.view (D.sectors s.disk)) l) ++ [⟨101, []⟩]) s) := by
  have hsend := sendLoop_eq D (.refl (D.sectors s.disk)) hl hl.length_lt size 0
  rw [hgeo] at hfile
  simp only [Fat32.serve, htype, serveRead, hgeo, hfile, Option.bind_eq_bind, Option.bind_some,
    hsend, Option.map_some]

theorem complete_iff (hsize : size ≤ 2 ^ 32) (ss : List Sector) (server : ℕ) (t : Task)
    (ht : t.ring.Valid ipcQueueSize) :
    (∀ turns, Complete server t (sectorMessages size 0 ss)
      (Transfer.run server ⟨sectorMessages size 0 ss ++ [⟨101, []⟩], t, []⟩ turns)) ↔
      t.ipcCount + chunkCount (min size (512 * ss.length)) ≤ ipcQueueSize := by
  obtain ⟨hmsgs, -⟩ := sectorMessages_offsets hsize 0 ss
  have hcount := sectorMessages_le_iff size t.ipcCount ss
  generalize sectorMessages size 0 ss = msgs at hmsgs hcount ⊢
  have hmessages : (msgs.map fun r => (replyArgs server r).message) =
      msgs.map fun r => ⟨server, r.type, r.data⟩ :=
    List.map_congr_left fun m hm => replyArgs_message (hmsgs m hm).2.2
  have hstart : Transfer.queue server ⟨msgs ++ [⟨101, []⟩], t, []⟩ =
      ⟨(msgs.map fun r => ⟨server, r.type, r.data⟩) ++ [⟨server, 101, []⟩], t.mailbox, []⟩ := by
    rw [Transfer.queue, List.map_append, hmessages]
    rfl
  have hlast : (⟨server, 101, []⟩ : Message) ∉ msgs.map fun r => ⟨server, r.type, r.data⟩ := by
    intro hm
    obtain ⟨r, hr, heq⟩ := List.mem_map.mp hm
    have htype := (hmsgs r hr).1.1
    rw [Message.mk.injEq] at heq
    omega
  have hgot (turns : List Turn) :
      (Transfer.run server ⟨msgs ++ [⟨101, []⟩], t, []⟩ turns).got =
        (LossyQueue.run ipcQueueSize ⟨(msgs.map fun r => ⟨server, r.type, r.data⟩) ++
          [⟨server, 101, []⟩], t.mailbox, []⟩ turns).got := by
    rw [← hstart, ← Transfer.queue_run server ht]
    rfl
  have hbox := Transfer.mailbox_length t
  have hiff := delivered_iff (by decide : 0 < ipcQueueSize) (hbox.le.trans ht.count_le) hlast
  rw [hbox, List.length_map] at hiff
  unfold Complete
  simp only [hgot]
  exact hiff.trans hcount

/-- All chunks of a file arrive before the message that ends it, whatever the order of sends and
receives, exactly when they fit the mailbox behind what waits in it. -/
theorem chunks_delivered_iff (spawn : ByteMemory.Mem → ℕ → Option ℕ) (hgeo : s.geo = L.toGeometry)
    (htype : req.type = 0)
    (hfile : resolvePath D.toDevice s.geo s.disk req.path = some (some (cluster, size)))
    (hl : L.Chain (L.view (D.sectors s.disk)) cluster l) (server : ℕ) (t : Task)
    (ht : t.ring.Valid ipcQueueSize) :
    ∃ msgs, Fat32.serve D.toDevice spawn s req = some (.replied (msgs ++ [⟨101, []⟩]) s) ∧
      (∀ m ∈ msgs, m.type = 100) ∧ msgs.Pairwise (fun m m' => m.offset < m'.offset) ∧
      ((∀ turns, Complete server t msgs (Transfer.run server ⟨msgs ++ [⟨101, []⟩], t, []⟩ turns)) ↔
        t.ipcCount + chunkCount (min size (512 * (L.sectorsPerCluster * l.length))) ≤
          ipcQueueSize) := by
  have hsize := (resolvePath_size hfile).le
  obtain ⟨hmsgs, hord⟩ := sectorMessages_offsets hsize 0
    (L.sectorsOf (L.view (D.sectors s.disk)) l)
  refine ⟨_, serve_file spawn hgeo htype hfile hl, fun m hm => (hmsgs m hm).1.1, hord, ?_⟩
  rw [complete_iff hsize _ server t ht, L.length_sectorsOf]

end Answers

section Sample

/-- The small volume with one file A of this size in cluster 3. -/
def fileServer (size : ℕ) : Server (ℕ → Sector) where
  geo := sampleLayout.toGeometry
  disk := fun lba =>
    if lba = 1 ∨ lba = 2 then
      ByteMemory.store (ByteMemory.store (fun _ => 0) 8 4 eoc) 12 4 eoc
    else if lba = 3 then ByteMemory.fill (fun _ => 0) 0 32 (fileEntry (to83 [65]) 3 size)
    else fun _ => 0
  fileBuf := fun _ => 0

/-- The request to read the file A. -/
def readRequest : Fat32.Request := ⟨0, fun i => if i = 0 then 65 else 0, 2⟩

private theorem fileServer_chain (size : ℕ) :
    sampleLayout.Chain (sampleLayout.view (fileServer size).disk) 3 [3] := by
  apply Layout.Chain.single
  · decide
  · have hload : ByteMemory.load (ByteMemory.store (ByteMemory.store (fun _ => 0) 8 4 eoc) 12 4 eoc)
        12 4 % 2 ^ 28 = eoc := by
      rw [ByteMemory.load_store]
      decide
    exact hload.ge

private theorem zeroTask_valid : zeroTask.ring.Valid ipcQueueSize :=
  ⟨by decide, by decide, by decide, rfl⟩

/-- The two chunks of a file of 100 bytes. -/
theorem chunks_delivered_sample :
    resolvePath arrayDisk.toDevice (fileServer 100).geo (fileServer 100).disk readRequest.path =
        some (some (3, 100)) ∧
    ∃ msgs, Fat32.serve arrayDisk.toDevice (fun _ _ => none) (fileServer 100) readRequest =
        some (.replied (msgs ++ [⟨101, []⟩]) (fileServer 100)) ∧
      (∀ m ∈ msgs, m.type = 100) ∧
      ∀ turns, Complete 7 zeroTask msgs
        (Transfer.run 7 ⟨msgs ++ [⟨101, []⟩], zeroTask, []⟩ turns) := by
  have hfile : resolvePath arrayDisk.toDevice (fileServer 100).geo (fileServer 100).disk
      readRequest.path = some (some (3, 100)) := by decide +kernel
  obtain ⟨msgs, hserve, htype, -, hiff⟩ := chunks_delivered_iff (D := arrayDisk) (L := sampleLayout)
    (s := fileServer 100) (fun _ _ => none) rfl rfl hfile (fileServer_chain 100) 7 zeroTask
    zeroTask_valid
  exact ⟨hfile, msgs, hserve, htype, hiff.mpr (by decide)⟩

/-- All 18 chunks are sent before the first receive, and the end of the file after it. -/
def lateTurns : List Turn :=
  List.replicate 18 .send ++ [.recv, .send] ++ List.replicate 16 .recv

/-- A file of 1024 bytes has 18 chunks. When the receiver is late the mailbox takes the first 16,
the end of the file is received behind them, and the last two chunks are lost. -/
theorem chunks_lost :
    resolvePath arrayDisk.toDevice (fileServer 1024).geo (fileServer 1024).disk readRequest.path =
        some (some (3, 1024)) ∧
    ∃ msgs, Fat32.serve arrayDisk.toDevice (fun _ _ => none) (fileServer 1024) readRequest =
        some (.replied (msgs ++ [⟨101, []⟩]) (fileServer 1024)) ∧ msgs.length = 18 ∧
      (Transfer.run 7 ⟨msgs ++ [⟨101, []⟩], zeroTask, []⟩ lateTurns).got.map Message.type =
        List.replicate 16 100 ++ [101] ∧
      ¬ Complete 7 zeroTask msgs
        (Transfer.run 7 ⟨msgs ++ [⟨101, []⟩], zeroTask, []⟩ lateTurns) := by
  have hfile : resolvePath arrayDisk.toDevice (fileServer 1024).geo (fileServer 1024).disk
      readRequest.path = some (some (3, 1024)) := by decide +kernel
  refine ⟨hfile, _, serve_file (D := arrayDisk) (L := sampleLayout) (s := fileServer 1024)
    (fun _ _ => none) rfl rfl hfile (fileServer_chain 1024), ?_, ?_, ?_⟩
  · decide +kernel
  · decide +kernel
  · unfold Complete
    decide +kernel

end Sample

end Mukrn.Shell
