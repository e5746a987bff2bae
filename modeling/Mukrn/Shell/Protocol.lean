import Mukrn.Fat32.Messages
import Mukrn.Shell.Command

/-! The exchange between the shell and the command server: how many messages end a command. -/
namespace Mukrn.Shell

def Send.ends (m : Send) : Bool := m.type == 3 || m.type == 4

/-- The messages to the shell end with one that ends the command, and no other one does. -/
def EndsOnce (shell : ℕ) (sent : List Send) : Prop :=
  ∃ pre last, sent.filter (·.pid == shell) = pre ++ [last] ∧ last.ends = true ∧
    ∀ m ∈ pre, m.ends = false

/-- No message to the shell ends the command. -/
def Quiet (shell : ℕ) (sent : List Send) : Prop := ∀ m ∈ sent, m.pid = shell → m.ends = false

/-- What the server asks the file server for. -/
def request (cmd : Buffer) : Option Send :=
  match command cmd.text with
  | .readfile => some ⟨fat32Pid, 0, cmd.path 9⟩
  | .spawn => some ⟨fat32Pid, 1, cmd.path 6⟩
  | .writefile => (writeData (cmd.text.drop 10)).map (⟨fat32Pid, 2, ·⟩)
  | .delete => some ⟨fat32Pid, 3, cmd.path 7⟩
  | .mkdir => some ⟨fat32Pid, 4, cmd.path 6⟩
  | .rmdir => some ⟨fat32Pid, 5, cmd.path 6⟩
  | _ => none

/-- A reply that ends a read. -/
def endsRead (m : Message) : Bool := m.sender == fat32Pid && (m.type == 255 || m.type == 101)

/-- The messages that arrive include a reply to the request, for a read the last one. -/
def Answered (cmd : Buffer) (incoming : List Message) : Prop :=
  ∀ req, request cmd = some req →
    ∃ m ∈ incoming, m.sender = fat32Pid ∧ (req.type = 0 → endsRead m = true)

/-- A `writefile` without a path and data. -/
def IsUsage (cmd : Buffer) : Prop :=
  command cmd.text = .writefile ∧ writeData (cmd.text.drop 10) = none

/-- A `readfile` that the file server answers with an error. -/
def ReadFails (cmd : Buffer) (incoming : List Message) : Prop :=
  command cmd.text = .readfile ∧ (incoming.find? endsRead).map Message.type = some 255

section Messages

variable {shell : ℕ} {sent pre out : List Send} {m : Send}

theorem Quiet.append (h : Quiet shell pre) (h' : Quiet shell out) : Quiet shell (pre ++ out) := by
  intro m hm
  rcases List.mem_append.mp hm with hm | hm
  · exact h m hm
  · exact h' m hm

theorem Quiet.cons (hm : m.pid = shell → m.ends = false) (h : Quiet shell out) :
    Quiet shell (m :: out) := by
  intro m' hm'
  rcases List.mem_cons.mp hm' with rfl | hm'
  · exact hm
  · exact h m' hm'

theorem quiet_nil : Quiet shell [] := fun m hm => (by cases hm)

theorem quiet_sendStr (shell : ℕ) (s : List UInt8) : Quiet shell (sendStr shell s) := by
  unfold sendStr
  generalize s.length = n
  induction n generalizing s with
  | zero => exact quiet_nil
  | succ n ih =>
    rw [sendStrLoop]
    split
    · exact quiet_nil
    · exact .cons (fun _ => rfl) (ih _)

theorem awaitEnd_append (h : ∀ m ∈ pre, m.ends = false) (out : List Send) :
    awaitEnd (pre ++ out) = awaitEnd out := by
  induction pre with
  | nil => rfl
  | cons m pre ih =>
    have hm : ¬ (m.type = 3 ∨ m.type = 4) := by
      have hm := h m (by simp)
      simpa [Send.ends] using hm
    rw [List.cons_append, awaitEnd, if_neg hm]
    exact ih fun m' hm' => h m' (by simp [hm'])

theorem awaitEnd_cons (h : m.ends = true) (out : List Send) : awaitEnd (m :: out) = some out := by
  have hm : m.type = 3 ∨ m.type = 4 := by simpa [Send.ends] using h
  rw [awaitEnd, if_pos hm]

/-- The shell's loop stops at the last message. -/
theorem endsOnce_iff : EndsOnce shell sent ↔ awaitEnd (sent.filter (·.pid == shell)) = some [] := by
  unfold EndsOnce
  generalize sent.filter (·.pid == shell) = l
  constructor
  · rintro ⟨pre, last, rfl, hlast, hpre⟩
    rw [awaitEnd_append hpre, awaitEnd_cons hlast]
  · intro h
    induction l with
    | nil => cases h
    | cons m l ih =>
      by_cases hm : m.ends = true
      · rw [awaitEnd_cons hm] at h
        obtain rfl := Option.some.inj h
        exact ⟨[], m, rfl, hm, fun m' hm' => (by cases hm')⟩
      · have hm : m.ends = false := by simpa using hm
        rw [← List.singleton_append, awaitEnd_append (by simpa using hm)] at h
        obtain ⟨pre, last, rfl, hlast, hpre⟩ := ih h
        refine ⟨m :: pre, last, rfl, hlast, fun m' hm' => ?_⟩
        rcases List.mem_cons.mp hm' with rfl | hm'
        · exact hm
        · exact hpre m' hm'

theorem Quiet.awaitEnd (h : Quiet shell pre) (out : List Send) :
    awaitEnd ((pre ++ out).filter (·.pid == shell)) =
      Shell.awaitEnd (out.filter (·.pid == shell)) := by
  rw [List.filter_append]
  apply awaitEnd_append
  intro m hm
  obtain ⟨hm, hpid⟩ := List.mem_filter.mp hm
  exact h m hm (by simpa using hpid)

theorem Quiet.not_endsOnce (h : Quiet shell sent) : ¬ EndsOnce shell sent := by
  have hnone := h.awaitEnd []
  rw [List.append_nil] at hnone
  rw [endsOnce_iff, hnone]
  simp [Shell.awaitEnd]

/-- Messages that do not end the command and then one that does. -/
theorem Quiet.endsOnce (h : Quiet shell pre) {type : ℕ} (htype : type = 3 ∨ type = 4)
    (data : List UInt8) : EndsOnce shell (pre ++ [⟨shell, type, data⟩]) := by
  rw [endsOnce_iff, h.awaitEnd]
  simp [Shell.awaitEnd, htype]

theorem Quiet.not_endsOnce_of_two (h : Quiet shell pre) (out : List Send) :
    ¬ EndsOnce shell (pre ++ [endMessage shell] ++ out ++ [endMessage shell]) := by
  rw [endsOnce_iff, List.append_assoc, List.append_assoc, h.awaitEnd]
  simp [Shell.awaitEnd, endMessage]

end Messages

section Replies

variable {shell : ℕ} {cmd resp : Buffer} {incoming : List Message} {req : Send}

theorem awaitReply_of_mem (h : ∃ m ∈ incoming, m.sender = fat32Pid) (resp : Buffer) :
    ∃ resp' rest, awaitReply resp incoming = some (resp', rest) := by
  induction incoming generalizing resp with
  | nil =>
    obtain ⟨m, hm, -⟩ := h
    cases hm
  | cons m incoming ih =>
    rw [awaitReply]
    split
    · exact ⟨_, _, rfl⟩
    next hm =>
      obtain ⟨m', hm', hpid⟩ := h
      rcases List.mem_cons.mp hm' with rfl | hm'
      · exact absurd hpid hm
      · exact ih ⟨m', hm', hpid⟩ _

theorem ask_endsOnce {answer : Buffer → List Send} (hreq : req.pid ≠ shell)
    (h : ∃ m ∈ incoming, m.sender = fat32Pid) (resp : Buffer)
    (hanswer : ∀ resp, ∃ out, answer resp = out ++ [endMessage shell] ∧ Quiet shell out) :
    ∃ sent rest, ask req answer resp incoming = (sent, .idle rest) ∧ EndsOnce shell sent := by
  obtain ⟨resp', rest, hawait⟩ := awaitReply_of_mem h resp
  obtain ⟨out, hout, hquiet⟩ := hanswer resp'
  refine ⟨_, rest, by rw [ask, hawait], ?_⟩
  rw [hout]
  exact (Quiet.cons (fun hpid => absurd hpid hreq) hquiet).endsOnce (.inr rfl) []

theorem readLoop_spec (shell : ℕ) (resp : Buffer) {m : Message}
    (h : incoming.find? endsRead = some m) :
    ∃ out rest, Quiet shell out ∧ readLoop shell resp incoming =
      (if m.type = 255 then out ++ [endMessage shell] else out, some rest) := by
  induction incoming generalizing resp with
  | nil => cases h
  | cons m' incoming ih =>
    rw [List.find?_cons] at h
    by_cases hm' : endsRead m' = true
    · rw [hm'] at h
      obtain rfl := Option.some.inj h
      simp only [endsRead, Bool.and_eq_true, Bool.or_eq_true, beq_iff_eq] at hm'
      obtain ⟨hpid, h255 | h101⟩ := hm'
      · refine ⟨[⟨shell, 2, ascii "Error\r\n"⟩], incoming, .cons (fun _ => rfl) quiet_nil, ?_⟩
        simp [readLoop, hpid, h255]
      · refine ⟨[], incoming, quiet_nil, ?_⟩
        simp [readLoop, hpid, h101]
    · have hm' : endsRead m' = false := by simpa using hm'
      rw [hm'] at h
      obtain ⟨out, rest, hquiet, hloop⟩ := ih (resp.deliver m') h
      simp only [endsRead, Bool.and_eq_false_iff, Bool.or_eq_false_iff, beq_eq_false_iff_ne] at hm'
      by_cases hpid : m'.sender = fat32Pid
      · obtain ⟨h255, h101⟩ := hm'.resolve_left (not_not.mpr hpid)
        by_cases h100 : m'.type = 100
        · refine ⟨⟨shell, 2, (resp.deliver m').bytesFrom 5 ((resp.deliver m').msg.data 4).toNat⟩ ::
            out, rest, .cons (fun _ => rfl) hquiet, ?_⟩
          have hne : ¬ m'.sender ≠ fat32Pid := not_not.mpr hpid
          rw [readLoop, if_neg hne, if_neg h255, if_neg h101, if_pos h100, hloop]
          by_cases hend : m.type = 255
          · rw [if_pos hend, if_pos hend]
            rfl
          · rw [if_neg hend, if_neg hend]
        · refine ⟨out, rest, hquiet, ?_⟩
          simp [readLoop, hpid, h255, h101, h100, hloop]
      · refine ⟨out, rest, hquiet, ?_⟩
        simp [readLoop, hpid, hloop]

theorem readfile_spec (hshell : shell ≠ fat32Pid) (cmd resp : Buffer) {m : Message}
    (h : incoming.find? endsRead = some m) :
    ∃ sent rest, readfile shell cmd resp incoming = (sent, .idle rest) ∧
      (EndsOnce shell sent ↔ m.type ≠ 255) := by
  obtain ⟨out, rest, hquiet, hloop⟩ := readLoop_spec shell resp h
  have hpre : Quiet shell (⟨fat32Pid, 0, cmd.path 9⟩ :: out) :=
    .cons (fun hpid => absurd hpid.symm hshell) hquiet
  rw [readfile, hloop]
  by_cases h255 : m.type = 255
  · have htwo := hpre.not_endsOnce_of_two [⟨shell, 2, ascii "\r\n"⟩]
    refine ⟨_, rest, rfl, ?_⟩
    rw [if_pos h255]
    simpa [h255] using htwo
  · have hone := (hpre.append (.cons (fun _ => rfl) quiet_nil :
      Quiet shell [⟨shell, 2, ascii "\r\n"⟩])).endsOnce (.inr rfl) []
    refine ⟨_, rest, rfl, ?_⟩
    rw [if_neg h255]
    simpa [h255, endMessage] using hone

theorem spawnAnswer_spec (shell : ℕ) (resp : Buffer) :
    ∃ out, spawnAnswer shell resp = out ++ [endMessage shell] ∧ Quiet shell out := by
  refine ⟨_, rfl, ?_⟩
  split
  · exact quiet_sendStr _ _
  · split
    · exact ((quiet_sendStr _ _).append (quiet_sendStr _ _)).append (quiet_sendStr _ _)
    · exact quiet_nil

theorem writeAnswer_spec (shell : ℕ) (resp : Buffer) :
    ∃ out, writeAnswer shell resp = out ++ [endMessage shell] ∧ Quiet shell out := by
  refine ⟨_, rfl, ?_⟩
  split
  · exact .cons (fun _ => rfl) quiet_nil
  · exact quiet_sendStr _ _

theorem plainAnswer_spec (error : String) (shell : ℕ) (resp : Buffer) :
    ∃ out, plainAnswer error shell resp = out ++ [endMessage shell] ∧ Quiet shell out := by
  refine ⟨_, rfl, ?_⟩
  split <;> exact quiet_sendStr _ _

theorem request_pid (h : request cmd = some req) : req.pid = fat32Pid := by
  unfold request at h
  split at h
  case h_3 =>
    obtain ⟨data, -, rfl⟩ := Option.map_eq_some_iff.mp h
    rfl
  all_goals cases h
  all_goals rfl

/-- Only a read makes a request of type 0. -/
theorem request_type_ne_zero (h : request cmd = some req) (hread : command cmd.text ≠ .readfile) :
    req.type ≠ 0 := by
  unfold request at h
  split at h
  case h_1 hcmd => exact absurd hcmd hread
  case h_3 =>
    obtain ⟨data, -, rfl⟩ := Option.map_eq_some_iff.mp h
    exact two_ne_zero
  all_goals cases h
  all_goals exact Nat.succ_ne_zero _

/-- The commands that ask the file server for something, apart from reading. -/
theorem serveCommand_ask (h : request cmd = some req) (hread : command cmd.text ≠ .readfile)
    (resp : Buffer) (incoming : List Message) :
    ∃ answer, serveCommand cmd resp incoming = ask req answer resp incoming ∧
      ∀ resp, ∃ out, answer resp = out ++ [endMessage cmd.msg.senderPid] ∧
        Quiet cmd.msg.senderPid out := by
  unfold request at h
  unfold serveCommand
  cases hcmd : command cmd.text with
  | readfile => exact absurd hcmd hread
  | spawn =>
    rw [hcmd] at h
    obtain rfl := Option.some.inj h
    exact ⟨_, rfl, spawnAnswer_spec _⟩
  | writefile =>
    rw [hcmd] at h
    obtain ⟨data, hdata, rfl⟩ := Option.map_eq_some_iff.mp h
    simp only [hdata]
    exact ⟨_, rfl, writeAnswer_spec _⟩
  | delete | mkdir | rmdir =>
    rw [hcmd] at h
    obtain rfl := Option.some.inj h
    exact ⟨_, rfl, plainAnswer_spec _ _⟩
  | help | clear | exit | unknown =>
    rw [hcmd] at h
    cases h

/-- The commands that the server answers on its own. -/
theorem serveCommand_alone (h : request cmd = none) (husage : ¬ IsUsage cmd) (resp : Buffer)
    (incoming : List Message) :
    ∃ sent status, serveCommand cmd resp incoming = (sent, status) ∧ status ≠ .waiting ∧
      EndsOnce cmd.msg.senderPid sent := by
  unfold request at h
  unfold serveCommand
  cases hcmd : command cmd.text with
  | help | clear | unknown =>
    exact ⟨_, _, rfl, by simp, (quiet_sendStr _ _).endsOnce (.inr rfl) []⟩
  | exit => exact ⟨_, _, rfl, by simp, (quiet_sendStr _ _).endsOnce (.inl rfl) [0]⟩
  | writefile =>
    rw [hcmd] at h
    exact absurd ⟨hcmd, Option.map_eq_none_iff.mp h⟩ husage
  | readfile | spawn | delete | mkdir | rmdir =>
    rw [hcmd] at h
    cases h

/-- Nothing ends a command whose usage is shown. -/
theorem serveCommand_usage (h : IsUsage cmd) (resp : Buffer) (incoming : List Message) :
    ∃ sent, serveCommand cmd resp incoming = (sent, .idle incoming) ∧
      ¬ EndsOnce cmd.msg.senderPid sent := by
  refine ⟨_, ?_, (quiet_sendStr _ (ascii "Usage: writefile <path> <data>\r\n")).not_endsOnce⟩
  simp only [serveCommand, h.1, h.2]

/-- A command that is answered comes to an end, and exactly one message ends it, the last one,
unless the usage of `writefile` is shown or a read fails. -/
theorem serveCommand_endsOnce_iff (hshell : cmd.msg.senderPid ≠ fat32Pid)
    (h : Answered cmd incoming) (resp : Buffer) :
    ∃ sent status, serveCommand cmd resp incoming = (sent, status) ∧ status ≠ .waiting ∧
      (EndsOnce cmd.msg.senderPid sent ↔ ¬ IsUsage cmd ∧ ¬ ReadFails cmd incoming) := by
  by_cases hread : command cmd.text = .readfile
  · have hreq : request cmd = some ⟨fat32Pid, 0, cmd.path 9⟩ := by rw [request, hread]
    obtain ⟨m, hm, -, hend⟩ := h _ hreq
    obtain ⟨m', hfind⟩ := Option.isSome_iff_exists.mp
      (List.find?_isSome.mpr ⟨m, hm, hend rfl⟩)
    obtain ⟨sent, rest, hsent, hiff⟩ := readfile_spec hshell cmd resp hfind
    have husage : ¬ IsUsage cmd := fun hu => (by cases hread.symm.trans hu.1)
    refine ⟨sent, .idle rest, ?_, by simp, ?_⟩
    · simp only [serveCommand, hread, hsent]
    · simp only [hiff, husage, ReadFails, hread, hfind, Option.map_some, Option.some.injEq,
        not_false_eq_true, true_and, ne_eq]
  · have hfails : ¬ ReadFails cmd incoming := fun hf => hread hf.1
    by_cases husage : IsUsage cmd
    · obtain ⟨sent, hsent, hno⟩ := serveCommand_usage husage resp incoming
      exact ⟨sent, _, hsent, by simp, fun he => absurd he hno, fun hu => absurd husage hu.1⟩
    · cases hreq : request cmd with
      | none =>
        obtain ⟨sent, status, hsent, hstatus, hends⟩ := serveCommand_alone hreq husage resp incoming
        exact ⟨sent, status, hsent, hstatus, fun _ => ⟨husage, hfails⟩, fun _ => hends⟩
      | some req =>
        obtain ⟨answer, hsent, hanswer⟩ := serveCommand_ask hreq hread resp incoming
        obtain ⟨m, hm, hpid, -⟩ := h req hreq
        have hne : req.pid ≠ cmd.msg.senderPid := by
          rw [request_pid hreq]
          exact hshell.symm
        obtain ⟨sent, rest, hask, hends⟩ := ask_endsOnce hne ⟨m, hm, hpid⟩ resp hanswer
        exact ⟨sent, _, hsent.trans hask, by simp, fun _ => ⟨husage, hfails⟩, fun _ => hends⟩

theorem awaitReply_eq_none (h : ∀ m ∈ incoming, m.sender ≠ fat32Pid) (resp : Buffer) :
    awaitReply resp incoming = none := by
  induction incoming generalizing resp with
  | nil => rfl
  | cons m incoming ih =>
    rw [awaitReply, if_neg (h m (by simp))]
    exact ih (fun m' hm' => h m' (by simp [hm'])) _

/-- A read without its last reply goes on waiting. -/
theorem readLoop_waiting (h : ∀ m ∈ incoming, endsRead m = false) (shell : ℕ) (resp : Buffer) :
    ∃ out, Quiet shell out ∧ readLoop shell resp incoming = (out, none) := by
  induction incoming generalizing resp with
  | nil => exact ⟨[], quiet_nil, rfl⟩
  | cons m incoming ih =>
    obtain ⟨out, hquiet, hloop⟩ := ih (fun m' hm' => h m' (by simp [hm'])) (resp.deliver m)
    have hm := h m (by simp)
    simp only [endsRead, Bool.and_eq_false_iff, Bool.or_eq_false_iff, beq_eq_false_iff_ne] at hm
    by_cases hpid : m.sender = fat32Pid
    · obtain ⟨h255, h101⟩ := hm.resolve_left (not_not.mpr hpid)
      by_cases h100 : m.type = 100
      · refine ⟨⟨shell, 2, (resp.deliver m).bytesFrom 5 ((resp.deliver m).msg.data 4).toNat⟩ ::
          out, .cons (fun _ => rfl) hquiet, ?_⟩
        simp [readLoop, hpid, h100, hloop]
      · refine ⟨out, hquiet, ?_⟩
        simp [readLoop, hpid, h255, h101, h100, hloop]
    · refine ⟨out, hquiet, ?_⟩
      simp [readLoop, hpid, hloop]

/-- Nothing ends a command that is not answered. -/
theorem serveCommand_waiting (hshell : cmd.msg.senderPid ≠ fat32Pid)
    (h : ¬ Answered cmd incoming) (resp : Buffer) :
    ∃ sent, serveCommand cmd resp incoming = (sent, .waiting) ∧
      ¬ EndsOnce cmd.msg.senderPid sent := by
  simp only [Answered, not_forall, not_exists, not_and] at h
  obtain ⟨req, hreq, hno⟩ := h
  have hquiet {out : List Send} (hout : Quiet cmd.msg.senderPid out) :
      Quiet cmd.msg.senderPid (req :: out) := by
    refine .cons (fun hpid => ?_) hout
    rw [request_pid hreq] at hpid
    exact absurd hpid.symm hshell
  by_cases hread : command cmd.text = .readfile
  · have hreq' : request cmd = some ⟨fat32Pid, 0, cmd.path 9⟩ := by rw [request, hread]
    obtain rfl := Option.some.inj (hreq'.symm.trans hreq)
    have hend : ∀ m ∈ incoming, endsRead m = false := by
      intro m hm
      by_contra hend
      have hend : endsRead m = true := by simpa using hend
      have hpid : m.sender = fat32Pid := by
        simp only [endsRead, Bool.and_eq_true, beq_iff_eq] at hend
        exact hend.1
      exact (hno m hm hpid).elim fun _ hn => hn hend
    obtain ⟨out, hout, hloop⟩ := readLoop_waiting hend cmd.msg.senderPid resp
    refine ⟨_, ?_, (hquiet hout).not_endsOnce⟩
    simp only [serveCommand, hread, readfile, hloop]
  · obtain ⟨answer, hsent, -⟩ := serveCommand_ask hreq hread resp incoming
    have hpid : ∀ m ∈ incoming, m.sender ≠ fat32Pid := by
      intro m hm hpid
      obtain ⟨h0, -⟩ := hno m hm hpid
      exact request_type_ne_zero hreq hread h0
    refine ⟨_, ?_, (hquiet quiet_nil).not_endsOnce⟩
    rw [hsent, ask, awaitReply_eq_none hpid]

end Replies

/-- What the file server replies is an answer, also with other messages in between. -/
theorem answered_of_served {δ : Type} {dev : Fat32.Device δ}
    {spawn : ByteMemory.Mem → ℕ → Option ℕ} {s s' : Fat32.Server δ} {req : Fat32.Request}
    {r : List Fat32.Reply} {cmd : Buffer} {incoming : List Message}
    (hreq : ∀ q, request cmd = some q → req.type = q.type)
    (h : Fat32.serve dev spawn s req = some (.replied r s'))
    (hsub : ∀ m ∈ r, ⟨fat32Pid, m.type, m.data⟩ ∈ incoming) : Answered cmd incoming := by
  intro q hq
  obtain ⟨m, hm, hend⟩ := Fat32.serve_replies h
  refine ⟨_, hsub m hm, rfl, fun h0 => ?_⟩
  simp [endsRead, hend ((hreq q hq).trans h0)]

section Commands

variable {shell : ℕ} {line : List UInt8} {m : Message} {incoming : List Message}

/-- For every line of the shell and all messages that arrive meanwhile, the server sends the shell
exactly one message that ends the command, as the last one, when the file server answers, unless
the usage of `writefile` is shown or a read fails. -/
theorem command_ends_once_iff (cmd resp : Buffer) (hshell : shell ≠ fat32Pid)
    (hline : lineMessage shell line = some m) (incoming : List Message) :
    ∃ sent status, serveMessage cmd resp m incoming = (sent, status) ∧
      (Answered (cmd.deliver m) incoming → status ≠ .waiting) ∧
      (EndsOnce shell sent ↔ Answered (cmd.deliver m) incoming ∧
        ¬ IsUsage (cmd.deliver m) ∧ ¬ ReadFails (cmd.deliver m) incoming) := by
  have hm : m.type = 1 ∧ m.sender = shell := by
    unfold lineMessage at hline
    split at hline
    · cases hline
    · obtain rfl := Option.some.inj hline
      exact ⟨rfl, rfl⟩
  have hpid : (cmd.deliver m).msg.senderPid = shell := hm.2
  rw [← hpid] at hshell ⊢
  rw [serveMessage, if_pos hm.1]
  by_cases h : Answered (cmd.deliver m) incoming
  · obtain ⟨sent, status, hsent, hstatus, hiff⟩ := serveCommand_endsOnce_iff hshell h resp
    refine ⟨sent, status, hsent, fun _ => hstatus, ?_⟩
    rw [hiff, and_iff_right h]
  · obtain ⟨sent, hsent, hno⟩ := serveCommand_waiting hshell h resp
    exact ⟨sent, .waiting, hsent, fun ha => absurd ha h, fun he => absurd he hno,
      fun ha => absurd ha.1 h⟩

end Commands

section Sample

/-- A buffer of zeros. -/
def emptyBuffer : Buffer := ⟨⟨0, 0, fun _ => 0, 0⟩, fun _ => 0⟩

/-- The buffer with a line of the shell with the pid 4. -/
private def lineBuffer (line : String) : Buffer := emptyBuffer.deliver ⟨4, 1, ascii line⟩

/-- A reply that ends a read is an answer to every request. -/
private theorem answered_of_end (cmd : Buffer) (type : ℕ) (h : type = 255 ∨ type = 101) :
    Answered cmd [⟨fat32Pid, type, []⟩] := by
  intro req _
  refine ⟨_, List.mem_singleton_self _, rfl, fun _ => ?_⟩
  simp [endsRead, h]

/-- An empty file is read. -/
theorem command_ends_once_sample :
    lineMessage 4 (ascii "readfile A") = some ⟨4, 1, ascii "readfile A"⟩ ∧
    ∃ sent status, serveMessage emptyBuffer emptyBuffer ⟨4, 1, ascii "readfile A"⟩
        [⟨fat32Pid, 101, []⟩] = (sent, status) ∧ status ≠ .waiting ∧ EndsOnce 4 sent := by
  have hline : lineMessage 4 (ascii "readfile A") = some ⟨4, 1, ascii "readfile A"⟩ := by
    decide +kernel
  have hcmd : command (lineBuffer "readfile A").text = .readfile := by decide +kernel
  have hend := answered_of_end (lineBuffer "readfile A") 101 (.inr rfl)
  obtain ⟨sent, status, hsent, hstatus, hiff⟩ := command_ends_once_iff emptyBuffer emptyBuffer
    (by decide) hline [⟨fat32Pid, 101, []⟩]
  refine ⟨hline, sent, status, hsent, hstatus hend, hiff.mpr ⟨hend, fun hu => ?_, fun hf => ?_⟩⟩
  · cases hcmd.symm.trans hu.1
  · have h101 := hf.2
    revert h101
    decide

/-- Two messages end the command to read a file that does not exist, and none a `writefile` without
arguments. -/
theorem command_ends_wrongly :
    lineMessage 4 (ascii "readfile A") = some ⟨4, 1, ascii "readfile A"⟩ ∧
    lineMessage 4 (ascii "writefile") = some ⟨4, 1, ascii "writefile"⟩ ∧
    (∃ sent rest, serveMessage emptyBuffer emptyBuffer ⟨4, 1, ascii "readfile A"⟩
        [⟨fat32Pid, 255, []⟩] = (sent, .idle rest) ∧
      (sent.filter (·.pid == 4)).countP Send.ends = 2) ∧
    ∃ sent rest, serveMessage emptyBuffer emptyBuffer ⟨4, 1, ascii "writefile"⟩ [] =
        (sent, .idle rest) ∧
      (sent.filter (·.pid == 4)).countP Send.ends = 0 := by
  refine ⟨?_, ?_, ⟨_, [], rfl, ?_⟩, ⟨_, [], rfl, ?_⟩⟩ <;> decide +kernel

end Sample

end Mukrn.Shell
