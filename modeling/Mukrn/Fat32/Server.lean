import Mukrn.Fat32.Directory

/-! The request loop of `fat32.c`. All replies go to the sender of the request. -/
namespace Mukrn.Fat32
open ByteMemory

/-- A request as received: its type, the 64 data bytes and the length. -/
structure Request where
  type : ℕ
  data : ℕ → UInt8
  length : ℕ

/-- The bytes from the data field on: a path that fills it runs into the length field. -/
def Request.byte (req : Request) (i : ℕ) : UInt8 :=
  if i < 64 then req.data i else byteAt req.length (i - 64)

def Request.path (req : Request) : List UInt8 :=
  ((List.range 72).map req.byte).takeWhile (· ≠ 0)

structure Reply where
  type : ℕ
  data : List UInt8
  deriving DecidableEq

/-- The statics of the server and its disk. -/
structure Server (δ : Type) where
  geo : Geometry
  disk : δ
  fileBuf : Mem

/-- A request is answered, or the server faults while it serves it. -/
inductive Outcome (δ : Type) where
  | replied (replies : List Reply) (s : Server δ)
  | crashed (s : Server δ)

def refused : List Reply := [⟨255, []⟩]

/-- The messages for the bytes of a sector from `off` up to `stop`, at most 59 in each. -/
def chunks (bytesPerSector : ℕ) (sec : Sector) (stop : ℕ) : ℕ → ℕ → List Reply
  | 0, _ => []
  | n + 1, off =>
    if off < stop then
      let chunk := min (stop - off) 59
      let head := (List.range 4).map (byteAt off) ++ [UInt8.ofNat chunk]
      let body := (List.range chunk).map fun j => sec (off % bytesPerSector + j)
      ⟨100, head ++ body⟩ :: chunks bytesPerSector sec stop n (off + chunk)
    else []

variable {δ : Type} (dev : Device δ) (g : Geometry)

/-- The sectors of a cluster: the messages, the offset reached, and whether all could be read. The
end of a sector wraps at 32 bits. -/
def sendSectors (d : δ) (size : ℕ) : List ℕ → ℕ → List Reply × ℕ × Bool
  | [], off => ([], off, true)
  | lba :: rest, off =>
    if off < size then
      match dev.read d lba with
      | none => ([], off, false)
      | some sec =>
        let stop := min ((off + g.bytesPerSector) % 2 ^ 32) size
        let (msgs, off', ok) := sendSectors d size rest (max off stop)
        (chunks g.bytesPerSector sec stop (stop - off) off ++ msgs, off', ok)
    else ([], off, true)

def sendLoop (d : δ) (size : ℕ) : ℕ → ℕ → ℕ → Option (List Reply)
  | 0, _, _ => none
  | n + 1, c, off =>
    if isLink c ∧ off < size then
      match sendSectors dev g d size ((List.range g.sectorsPerCluster).map (g.sectorAt c)) off with
      | (msgs, _, false) => some (msgs ++ refused)
      | (msgs, off, true) => (sendLoop d size n (nextCluster dev g d c) off).map (msgs ++ ·)
    else some [⟨101, []⟩]

def serveRead (d : δ) (path : List UInt8) : Option (List Reply) := do
  match ← resolvePath dev g d path with
  | none => some refused
  | some (cluster, size) => sendLoop dev g d size maxSteps cluster 0

/-- The sectors of a cluster into the buffer. -/
def loadSectors (d : δ) (size : ℕ) : List ℕ → Mem → ℕ → Mem × ℕ × Bool
  | [], buf, off => (buf, off, true)
  | lba :: rest, buf, off =>
    if off < size then
      match dev.read d lba with
      | none => (buf, off, false)
      | some sec => loadSectors d size rest (fill buf off 512 sec) (off + g.bytesPerSector)
    else (buf, off, true)

/-- The buffer and, when the chain could be read, the offset reached. -/
def loadLoop (d : δ) (size : ℕ) : ℕ → ℕ → Mem → ℕ → Option (Mem × Option ℕ)
  | 0, _, _, _ => none
  | n + 1, c, buf, off =>
    if isLink c ∧ off < size then
      match loadSectors dev g d size ((List.range g.sectorsPerCluster).map (g.sectorAt c)) buf
        off with
      | (buf, _, false) => some (buf, none)
      | (buf, off, true) => loadLoop d size n (nextCluster dev g d c) buf off
    else some (buf, some off)

/-- `spawn` is the system call that starts a program from a buffer and returns its pid. -/
def serveExec (spawn : Mem → ℕ → Option ℕ) (s : Server δ) (path : List UInt8) :
    Option (List Reply × Mem) := do
  match ← resolvePath dev s.geo s.disk path with
  | none => some (refused, s.fileBuf)
  | some (cluster, size) =>
    if 32768 < size then some (refused, s.fileBuf)
    else
      match ← loadLoop dev s.geo s.disk size maxSteps cluster s.fileBuf 0 with
      | (buf, none) => some (refused, buf)
      | (buf, some off) =>
        if off < size then some (refused, buf)
        else
          match spawn buf size with
          | some pid => some ([⟨101, (List.range 8).map (byteAt pid)⟩], buf)
          | none => some (refused, buf)

/-- One sector buffer of file data, filled up with zeros. -/
def dataSector (data : ℕ → UInt8) (off chunk : ℕ) : Sector :=
  fun i => if i < chunk then data (off + i) else 0

/-- The first `toWrite` bytes from `off` on into the sectors of a cluster: the number written, and
whether all writes succeeded. -/
def writeSectors (data : ℕ → UInt8) (off toWrite : ℕ) : List ℕ → δ → ℕ → ℕ × Bool × δ
  | [], d, done => (done, true, d)
  | lba :: rest, d, done =>
    if done < toWrite then
      let chunk := min (toWrite - done) g.bytesPerSector
      match dev.write d lba (dataSector data (off + done) chunk) with
      | (false, d) => (done, false, d)
      | (true, d) => writeSectors data off toWrite rest d (done + chunk)
    else (done, true, d)

/-- The cluster to write to: a new one, linked to the previous one, where the chain ends. -/
def extendChain (d : δ) (c prev : ℕ) : Option ℕ × δ :=
  if isLink c then (some c, d)
  else
    match allocCluster dev g d with
    | (0, d) => (none, d)
    | (new, d) =>
      if prev = 0 then (some new, d)
      else
        match setFatEntry dev g d prev new with
        | (false, d) => (none, d)
        | (true, d) => (some new, d)

def writeDataLoop (data : ℕ → UInt8) (size : ℕ) : ℕ → δ → ℕ → ℕ → ℕ → Option (Bool × δ)
  | 0, _, _, _, _ => none
  | n + 1, d, c, off, prev =>
    if off < size then
      match extendChain dev g d c prev with
      | (none, d) => some (false, d)
      | (some c, d) =>
        let toWrite := min (size - off) (g.bytesPerSector * g.sectorsPerCluster)
        match writeSectors dev g data off toWrite
            ((List.range g.sectorsPerCluster).map (g.sectorAt c)) d 0 with
        | (_, false, d) => some (false, d)
        | (done, true, d) => writeDataLoop data size n d (nextCluster dev g d c) (off + done) c
    else some (true, d)

def writeFileData (d : δ) (startCluster : ℕ) (data : ℕ → UInt8) (size : ℕ) : Option (Bool × δ) :=
  writeDataLoop dev g data size maxSteps d startCluster 0 0

/-- The chain for the data of a write request: its first cluster, 0 without data. -/
def storeData (d : δ) (data : ℕ → UInt8) (len : ℕ) : Option (Option ℕ × δ) :=
  if len = 0 then some (some 0, d)
  else
    match allocCluster dev g d with
    | (0, d) => some (none, d)
    | (start, d) => do
      match ← writeFileData dev g d start data len with
      | (true, d) => some (some start, d)
      | (false, d) => (freeClusterChain dev g d start).map (none, ·)

/-- The size and the first cluster of an entry are replaced. -/
def patchEntry (sec : Sector) (off start len : ℕ) : Sector :=
  store (store (store sec (off + 0x1C) 4 len) (off + 0x14) 2 (start / 2 ^ 16)) (off + 0x1A) 2 start

/-- The `found` flag of the overwriting loop. -/
inductive Found where
  | no
  | yes
  | ended
  deriving DecidableEq

/-- The overwriting loop within one sector. It goes on behind a match, and the flag says what it met
last. Nothing is returned for it when a write fails. -/
def overwriteEntries (name : List UInt8) (old start len lba : ℕ) :
    List ℕ → Sector → Found → δ → Option (Option Found × δ)
  | [], _, found, d => some (some found, d)
  | off :: rest, sec, found, d =>
    match visitEntry name sec off with
    | some .endMark => some (some .ended, d)
    | none => overwriteEntries name old start len lba rest sec found d
    | some (.entry _) => do
      let d ← freeClusterChain dev g d old
      let sec := patchEntry sec off start len
      match dev.write d lba sec with
      | (false, d) => some (none, d)
      | (true, d) => overwriteEntries name old start len lba rest sec .yes d

/-- The overwriting branch: whether it ends in the reply 200. The flag changes in the first sector
with a match or an end mark. -/
def overwriteEntry (d : δ) (dirCluster : ℕ) (name : List UInt8) (old start len : ℕ) :
    Option (Bool × δ) := do
  match ← walkDir dev g (visitName name) d dirCluster with
  | .failed | .missing => (freeClusterChain dev g d start).map (false, ·)
  | .found lba sec _ =>
    match ← overwriteEntries dev g name old start len lba entryOffsets sec .no d with
    | (none, d) => some (false, d)
    | (some .yes, d) => some (true, d)
    | (some _, d) => (freeClusterChain dev g d start).map (false, ·)

/-- An entry for a file. The high half of the first cluster is set and then cleared with the
dates. -/
def fileEntry (name : List UInt8) (start len : ℕ) : Mem :=
  let e := fill (fun _ => 0) 0 11 fun i => name.getD i 0
  let e := Function.update e 0xB 0x20
  let e := store e 0x1C 4 len
  let e := store e 0x1A 2 start
  let e := store e 0x14 2 (start / 2 ^ 16)
  let e := fill e 0x10 4 fun _ => 0
  let e := fill e 0x12 4 fun _ => 0
  fill e 0x16 4 fun _ => 0

def dirEntry (name : List UInt8) (start : ℕ) : Mem :=
  let e := fill (fun _ => 0) 0 11 fun i => name.getD i 0
  let e := Function.update e 0xB 0x10
  let e := store e 0x1A 2 start
  store e 0x14 2 (start / 2 ^ 16)

/-- The common end of the requests that create an entry: whether it ends in the reply 200. The
offset of the free entry is taken within the first sectors of the directory. -/
def addEntry (d : δ) (dirCluster : ℕ) (entry : Mem) (start : ℕ) : Option (Bool × δ) := do
  match ← freeDirEntry dev g d dirCluster with
  | (none, d) => (freeClusterChain dev g d start).map (false, ·)
  | (some off, d) =>
    let lba := (g.clusterToSector dirCluster + off / 512) % 2 ^ 32
    match dev.read d lba with
    | none => (freeClusterChain dev g d start).map (false, ·)
    | some sec =>
      match dev.write d lba (fill sec (off % 512) 32 entry) with
      | (false, d) => (freeClusterChain dev g d start).map (false, ·)
      | (true, d) => some (true, d)

def writeNamed (d : δ) (dirCluster : ℕ) (name : List UInt8) (data : ℕ → UInt8) (len : ℕ) :
    Option (Bool × δ) := do
  let existing ← findInDir dev g d dirCluster name
  match ← storeData dev g d data len with
  | (none, d) => some (false, d)
  | (some start, d) =>
    match existing with
    | some (old, _) => overwriteEntry dev g d dirCluster name old start len
    | none => addEntry dev g d dirCluster (fileEntry name start len) start

/-- The first sector of a new directory. -/
def dotSector (new parent : ℕ) : Sector :=
  let sec := Function.update (Function.update (fun _ => 0) 0 46) 1 32
  let sec := store sec 0x1A 2 new
  let sec := store sec 0x14 2 (new / 2 ^ 16)
  let sec := Function.update sec 0xB 0x10
  let sec := Function.update (Function.update (Function.update sec 32 46) 33 46) 34 32
  let sec := store sec (32 + 0x1A) 2 parent
  let sec := store sec (32 + 0x14) 2 (parent / 2 ^ 16)
  Function.update sec (32 + 0xB) 0x10

def makeDir (d : δ) (dirCluster : ℕ) (name : List UInt8) : Option (Bool × δ) :=
  match allocCluster dev g d with
  | (0, d) => some (false, d)
  | (new, d) =>
    match dev.write d (g.clusterToSector new) (dotSector new dirCluster) with
    | (false, d) => (freeClusterChain dev g d new).map (false, ·)
    | (true, d) => addEntry dev g d dirCluster (dirEntry name new) new

/-- A request that changes the directory a path is in: reply 200 or 255. -/
def inParent (s : Server δ) (path : List UInt8)
    (change : ℕ → List UInt8 → Option (Bool × δ)) : Option (Outcome δ) := do
  match ← resolveParent dev s.geo s.disk path with
  | .missing => some (.replied refused s)
  | .fault => some (.crashed s)
  | .inDir cluster filename =>
    match ← change cluster (to83 filename) with
    | (true, d) => some (.replied [⟨200, []⟩] { s with disk := d })
    | (false, d) => some (.replied refused { s with disk := d })

def serve (spawn : Mem → ℕ → Option ℕ) (s : Server δ) (req : Request) : Option (Outcome δ) :=
  let path := req.path
  match req.type with
  | 0 => (serveRead dev s.geo s.disk path).map (.replied · s)
  | 1 => (serveExec dev spawn s path).map fun r => .replied r.1 { s with fileBuf := r.2 }
  | 2 =>
    let pathLen := path.length + 1
    if req.length < pathLen then some (.replied refused s)
    else inParent dev s path fun cluster name =>
      writeNamed dev s.geo s.disk cluster name (fun i => req.byte (pathLen + i))
      (req.length - pathLen)
  | 3 | 5 => inParent dev s path (deleteEntry dev s.geo s.disk)
  | 4 => inParent dev s path (makeDir dev s.geo s.disk)
  | _ => some (.replied refused s)

end Mukrn.Fat32
