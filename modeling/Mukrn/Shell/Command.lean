import Mukrn.Table.Interrupt

/-! The command server `command.c` and the parts of `shell.c` that talk to it. -/
namespace Mukrn.Shell
open ByteMemory

def code (c : Char) : UInt8 := c.toUInt8

def ascii (s : String) : List UInt8 := s.toList.map code

/-- A variable of type `ipc_msg_t` and the memory behind it. -/
structure Buffer where
  msg : IpcMsg
  behind : ℕ → UInt8

/-- A receive stores the fields and the bytes of the message. The data behind them stays. -/
def Buffer.deliver (b : Buffer) (m : Message) : Buffer where
  msg :=
    { senderPid := m.sender
      type := m.type
      data := fun i => if i < m.bytes.length then m.bytes.getD i 0 else b.msg.data i
      length := m.bytes.length }
  behind := b.behind

/-- The data field and the length field behind it. A mailbox holds lengths up to 64, so that a
string in the data field ends within these bytes. -/
def Buffer.text (b : Buffer) : List UInt8 :=
  (List.range 64).map b.msg.data ++ (List.range 8).map (byteAt b.msg.length)

/-- `n` bytes from the index `i` of the data field on. -/
def Buffer.bytesFrom (b : Buffer) (i n : ℕ) : List UInt8 :=
  ((b.text ++ (List.range (i + n)).map b.behind).drop i).take n

/-- A send call: its target, the type and the bytes at its data pointer. -/
structure Send where
  pid : ℕ
  type : ℕ
  data : List UInt8
  deriving DecidableEq

def fat32Pid : ℕ := 7

def sendStrLoop (pid : ℕ) : ℕ → List UInt8 → List Send
  | 0, _ => []
  | n + 1, s => if s = [] then [] else ⟨pid, 2, s.take 63⟩ :: sendStrLoop pid n (s.drop 63)

def sendStr (pid : ℕ) (s : List UInt8) : List Send := sendStrLoop pid s.length s

inductive Command where
  | help
  | clear
  | exit
  | readfile
  | spawn
  | writefile
  | delete
  | mkdir
  | rmdir
  | unknown
  deriving DecidableEq

/-- The branch that is taken for a command. -/
def command (text : List UInt8) : Command :=
  let c₀ := text.getD 0 0
  let c₁ := text.getD 1 0
  if c₀ = code 'h' then .help
  else if c₀ = code 'c' then .clear
  else if c₀ = code 'e' then .exit
  else if c₀ = code 'r' ∧ c₁ = code 'e' then .readfile
  else if c₀ = code 's' ∧ c₁ = code 'p' then .spawn
  else if c₀ = code 'w' then .writefile
  else if c₀ = code 'd' then .delete
  else if c₀ = code 'm' then .mkdir
  else if c₀ = code 'r' ∧ c₁ = code 'm' then .rmdir
  else .unknown

def skipSpaces (s : List UInt8) : List UInt8 := s.dropWhile (· == code ' ')

/-- The 63 bytes sent as a path, from behind the blanks at the offset on. -/
def Buffer.path (b : Buffer) (offset : ℕ) : List UInt8 :=
  (skipSpaces (b.text.drop offset) ++ (List.range 63).map b.behind).take 63

/-- Whether a character ends the path of `writefile`. -/
def endsPath (c : UInt8) : Bool := c == 0 || c == code ' '

/-- The data of the request for `writefile` with these arguments, none when the usage is shown. -/
def writeData (args : List UInt8) : Option (List UInt8) :=
  let path := (skipSpaces args).takeWhile (!endsPath ·)
  match (skipSpaces args).dropWhile (!endsPath ·) with
  | [] => none
  | sep :: rest =>
    if sep = 0 ∨ path = [] then none
    else
      let head := path.take 50 ++ [0]
      some (head ++ (rest.takeWhile (· != 0)).take (64 - head.length))

/-- Whether the server waits for the next command with these messages behind it, has exited, or
still waits for a reply. -/
inductive Status where
  | idle (rest : List Message)
  | exited
  | waiting
  deriving DecidableEq

/-- Messages from others are dropped while the server waits. -/
def awaitReply (resp : Buffer) : List Message → Option (Buffer × List Message)
  | [] => none
  | m :: rest =>
    if m.sender = fat32Pid then some (resp.deliver m, rest) else awaitReply (resp.deliver m) rest

/-- A request and what is sent for the reply to it. -/
def ask (request : Send) (answer : Buffer → List Send) (resp : Buffer) (incoming : List Message) :
    List Send × Status :=
  match awaitReply resp incoming with
  | none => ([request], .waiting)
  | some (resp, rest) => (request :: answer resp, .idle rest)

/-- The message that ends a command. -/
def endMessage (shell : ℕ) : Send := ⟨shell, 4, []⟩

/-- The loop over the replies to a read request, with the messages behind its end. -/
def readLoop (shell : ℕ) : Buffer → List Message → List Send × Option (List Message)
  | _, [] => ([], none)
  | resp, m :: rest =>
    let resp := resp.deliver m
    if m.sender ≠ fat32Pid then readLoop shell resp rest
    else if m.type = 255 then ([⟨shell, 2, ascii "Error\r\n"⟩, endMessage shell], some rest)
    else if m.type = 101 then ([], some rest)
    else if m.type = 100 then
      let (out, rest) := readLoop shell resp rest
      (⟨shell, 2, resp.bytesFrom 5 (resp.msg.data 4).toNat⟩ :: out, rest)
    else readLoop shell resp rest

def readfile (shell : ℕ) (cmd resp : Buffer) (incoming : List Message) : List Send × Status :=
  let request : Send := ⟨fat32Pid, 0, cmd.path 9⟩
  match readLoop shell resp incoming with
  | (out, none) => (request :: out, .waiting)
  | (out, some rest) => (request :: out ++ [⟨shell, 2, ascii "\r\n"⟩, endMessage shell], .idle rest)

def hexDigit (n : ℕ) : UInt8 :=
  if n < 10 then code '0' + UInt8.ofNat n else code 'a' + UInt8.ofNat (n - 10)

/-- Sixteen digits, without the zeros at the front. -/
def hexString (pid : ℕ) : List UInt8 :=
  let digits := (List.range 16).map fun i => hexDigit (pid / 16 ^ (15 - i) % 16)
  (digits.take 15).dropWhile (· == code '0') ++ digits.drop 15

def spawnAnswer (shell : ℕ) (resp : Buffer) : List Send :=
  (if resp.msg.type = 255 then sendStr shell (ascii "Spawn error\r\n")
  else if resp.msg.type = 101 then
    sendStr shell (ascii "Spawned PID ") ++ sendStr shell (hexString (load resp.msg.data 0 8)) ++
      sendStr shell (ascii "\r\n")
  else []) ++ [endMessage shell]

/-- The type of a reply as a signed number, and its three digits. -/
def errText (type : ℕ) : List UInt8 :=
  let n : ℤ := Int.bmod type (2 ^ 32)
  let digit (d : ℤ) : UInt8 := UInt8.ofNat ((d + 48) % 256).toNat
  ascii "Err: " ++ [digit (n.tdiv 100), digit ((n.tdiv 10).tmod 10), digit (n.tmod 10)] ++
    ascii "\r\n" ++ [0]

def writeAnswer (shell : ℕ) (resp : Buffer) : List Send :=
  (if 250 ≤ resp.msg.type then [⟨shell, 2, errText resp.msg.type⟩]
  else sendStr shell (ascii "OK\r\n")) ++ [endMessage shell]

/-- The answer to the requests that only succeed or fail. -/
def plainAnswer (error : String) (shell : ℕ) (resp : Buffer) : List Send :=
  (if resp.msg.type = 255 then sendStr shell (ascii error) else sendStr shell (ascii "OK\r\n")) ++
    [endMessage shell]

def helpText : String :=
  "Commands:\r\n  help\r\n  readfile <path>\r\n  spawn <path>\r\n  writefile <path> <data>\r\n" ++
  "  delete <path>\r\n  mkdir <path>\r\n  rmdir <path>\r\n  clear\r\n  exit\r\n"

/-- One command: what is sent for it, with the messages that arrive meanwhile. -/
def serveCommand (cmd resp : Buffer) (incoming : List Message) : List Send × Status :=
  let shell := cmd.msg.senderPid
  match command cmd.text with
  | .help => (sendStr shell (ascii helpText) ++ [endMessage shell], .idle incoming)
  | .clear => (sendStr shell (ascii "\x1b[2J\x1b[H") ++ [endMessage shell], .idle incoming)
  | .exit => (sendStr shell (ascii "Bye!\r\n") ++ [⟨shell, 3, [0]⟩], .exited)
  | .readfile => readfile shell cmd resp incoming
  | .spawn => ask ⟨fat32Pid, 1, cmd.path 6⟩ (spawnAnswer shell) resp incoming
  | .writefile =>
    match writeData (cmd.text.drop 10) with
    | none => (sendStr shell (ascii "Usage: writefile <path> <data>\r\n"), .idle incoming)
    | some data => ask ⟨fat32Pid, 2, data⟩ (writeAnswer shell) resp incoming
  | .delete => ask ⟨fat32Pid, 3, cmd.path 7⟩ (plainAnswer "Delete error\r\n" shell) resp incoming
  | .mkdir => ask ⟨fat32Pid, 4, cmd.path 6⟩ (plainAnswer "Mkdir error\r\n" shell) resp incoming
  | .rmdir => ask ⟨fat32Pid, 5, cmd.path 6⟩ (plainAnswer "Rmdir error\r\n" shell) resp incoming
  | .unknown => (sendStr shell (ascii "Unknown\r\n") ++ [endMessage shell], .idle incoming)

/-- One round of the server's loop. Messages of another type are passed over. -/
def serveMessage (cmd resp : Buffer) (m : Message) (incoming : List Message) : List Send × Status :=
  if m.type = 1 then serveCommand (cmd.deliver m) resp incoming else ([], .idle incoming)

/-- The line of `shell.c` from the characters typed, and the message that is sent for it. -/
def readLine (typed : List UInt8) : List UInt8 :=
  (typed.takeWhile fun c => c != code '\r' && c != code '\n').take 255

def lineMessage (shell : ℕ) (line : List UInt8) : Option Message :=
  if line.getD 0 0 = 0 then none
  else some (SendArgs.message ⟨shell, 1, line.length, fun i => line.getD i 0⟩)

/-- The shell prints messages until one ends the command. The messages behind it stay in the
mailbox. -/
def awaitEnd : List Send → Option (List Send)
  | [] => none
  | m :: rest => if m.type = 3 ∨ m.type = 4 then some rest else awaitEnd rest

/-- The copy loop of `sys_recv` from index `i` on. -/
private theorem recv_copied (t : Task) (k : ℕ) (out : IpcMsg) (i : ℕ) :
    Completes recvStep (t, out, .copy k i) (t.advanceTail.countDown, { out with
      data := fun j => if i ≤ j ∧ j < (t.ipcQueue k).length then (t.ipcQueue k).data j
        else out.data j }, .done 0) := by
  induction hn : (t.ipcQueue k).length - i generalizing out i with
  | zero =>
    have hi : ¬ i < (t.ipcQueue k).length := by omega
    have hdata : (fun j => if i ≤ j ∧ j < (t.ipcQueue k).length then (t.ipcQueue k).data j
        else out.data j) = out.data := by
      funext j
      exact if_neg (by omega)
    rw [hdata]
    exact .head (if_neg hi) (recv_tail t out)
  | succ n ih =>
    have hi : i < (t.ipcQueue k).length := by omega
    have hdata : (fun j => if i ≤ j ∧ j < (t.ipcQueue k).length then (t.ipcQueue k).data j
        else out.data j) = fun j => if i + 1 ≤ j ∧ j < (t.ipcQueue k).length then
          (t.ipcQueue k).data j else Function.update out.data i ((t.ipcQueue k).data i) j := by
      funext j
      by_cases hji : j = i
      · subst hji
        simp [hi]
      · have hiff : i ≤ j ↔ i + 1 ≤ j := by omega
        simp [hji, hiff]
    rw [hdata]
    exact .head (if_pos hi) (ih { out with
      data := Function.update out.data i ((t.ipcQueue k).data i) } (i + 1) (by omega))

/-- The statements of `sys_recv` deliver the message at the tail of the mailbox. -/
theorem recv_deliver {t : Task} (ht : t.ipcCount ≠ 0) (b : Buffer) :
    Completes recvStep (t, b.msg, .check) (t.recv,
      (b.deliver (t.ipcQueue t.ipcTail).message).msg, .done 0) := by
  have hrecv : t.recv = t.advanceTail.countDown := if_neg ht
  have hcheck : recvStep (t, b.msg, .check) = (t, b.msg, .source) := by simp [recvStep, ht]
  have hcopy := recv_copied t t.ipcTail { b.msg with
    senderPid := (t.ipcQueue t.ipcTail).senderPid, type := (t.ipcQueue t.ipcTail).type,
    length := (t.ipcQueue t.ipcTail).length } 0
  have hdata : (b.deliver (t.ipcQueue t.ipcTail).message).msg = { b.msg with
      senderPid := (t.ipcQueue t.ipcTail).senderPid, type := (t.ipcQueue t.ipcTail).type,
      length := (t.ipcQueue t.ipcTail).length,
      data := fun j => if 0 ≤ j ∧ j < (t.ipcQueue t.ipcTail).length then
        (t.ipcQueue t.ipcTail).data j else b.msg.data j } := by
    simp only [Buffer.deliver, IpcMsg.message, List.length_map, List.length_range, Nat.zero_le,
      true_and, IpcMsg.mk.injEq, and_true]
    funext j
    split
    next hj => simp [hj]
    · rfl
  rw [hrecv, hdata]
  exact .head hcheck (.head rfl (.head rfl (.head rfl (.head rfl hcopy))))

end Mukrn.Shell
