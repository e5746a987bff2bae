import Mukrn.Fat32.Disk

/-! Names, directory walks and path lookup of `fat32.c`. The walks of `find_in_dir`,
`free_dir_entry`, `delete_entry` and of the overwriting branch share their two outer loops. -/
namespace Mukrn.Fat32
open ByteMemory

def upper (c : UInt8) : UInt8 := if 97 ≤ c ∧ c ≤ 122 then c - 32 else c

def padTo (n : ℕ) (s : List UInt8) : List UInt8 := s ++ List.replicate (n - s.length) 32

/-- Eight bytes up to the first dot and three after it, in capitals and padded with blanks. -/
def to83 (name : List UInt8) : List UInt8 :=
  let base := (name.takeWhile (· ≠ 46)).take 8
  let ext := ((name.dropWhile (· ≠ 46)).drop 1).take 3
  padTo 8 (base.map upper) ++ padTo 3 (ext.map upper)

/-- The offsets of the entries of a sector. -/
def entryOffsets : List ℕ := (List.range 16).map (32 * ·)

def entryCluster (sec : Sector) (off : ℕ) : ℕ :=
  load sec (off + 0x14) 2 * 2 ^ 16 + load sec (off + 0x1A) 2

def entrySize (sec : Sector) (off : ℕ) : ℕ := load sec (off + 0x1C) 4

/-- Deleted entries, long names and labels are passed over. -/
def isSkipped (sec : Sector) (off : ℕ) : Bool :=
  sec off == 0xE5 || sec (off + 0xB) == 0x0F || sec (off + 0xB) &&& 0x08 != 0

def isNamed (name : List UInt8) (sec : Sector) (off : ℕ) : Bool :=
  (List.range 11).all fun i => sec (off + i) == name.getD i 0

/-- Where the scan of a sector for a name stops. -/
inductive Hit where
  | endMark
  | entry (off : ℕ)
  deriving DecidableEq

def visitEntry (name : List UInt8) (sec : Sector) (off : ℕ) : Option Hit :=
  if sec off = 0 then some .endMark
  else if isSkipped sec off then none
  else if isNamed name sec off then some (.entry off)
  else none

def visitName (name : List UInt8) (sec : Sector) : Option Hit :=
  entryOffsets.findSome? (visitEntry name sec)

def visitFree (sec : Sector) : Option ℕ :=
  entryOffsets.find? fun off => sec off == 0 || sec off == 0xE5

/-- How a walk over a directory ends: a sector cannot be read, the chain ends, or a sector holds
what is looked for. -/
inductive Walk (ρ : Type) where
  | failed
  | missing
  | found (lba : ℕ) (sec : Sector) (r : ρ)

variable {δ ρ : Type} (dev : Device δ) (g : Geometry)

def walkSectors (visit : Sector → Option ρ) (d : δ) : List ℕ → Option (Walk ρ)
  | [] => none
  | lba :: rest =>
    match dev.read d lba with
    | none => some .failed
    | some sec =>
      match visit sec with
      | some r => some (.found lba sec r)
      | none => walkSectors visit d rest

/-- At most `n` clusters of the directory, nothing when the walk goes on. -/
def walkLoop (visit : Sector → Option ρ) (d : δ) : ℕ → ℕ → Option (Walk ρ)
  | 0, _ => none
  | n + 1, c =>
    if isLink c then
      match walkSectors dev visit d ((List.range g.sectorsPerCluster).map (g.sectorAt c)) with
      | some w => some w
      | none => walkLoop visit d n (nextCluster dev g d c)
    else some .missing

def walkDir (visit : Sector → Option ρ) (d : δ) (dirCluster : ℕ) : Option (Walk ρ) :=
  walkLoop dev g visit d maxSteps dirCluster

/-- First cluster and size of the entry, if the directory has it. -/
def findInDir (d : δ) (dirCluster : ℕ) (name : List UInt8) : Option (Option (ℕ × ℕ)) :=
  (walkDir dev g (visitName name) d dirCluster).map fun w =>
    match w with
    | .found _ sec (.entry off) => some (entryCluster sec off, entrySize sec off)
    | _ => none

/-- The part of a path before the first slash. -/
def pathHead (path : List UInt8) : List UInt8 := path.takeWhile (· ≠ 47)

/-- The part after the first slash, if there is one. -/
def pathTail (path : List UInt8) : Option (List UInt8) :=
  match path.dropWhile (· ≠ 47) with
  | [] => none
  | _ :: rest => some rest

def resolvePath (d : δ) (path : List UInt8) : Option (Option (ℕ × ℕ)) :=
  match pathTail path with
  | none => findInDir dev g d g.rootCluster (to83 path)
  | some rest =>
    if 63 < (pathHead path).length then some none
    else do
      match ← findInDir dev g d g.rootCluster (to83 (pathHead path)) with
      | none => some none
      | some (cluster, _) => findInDir dev g d cluster (to83 rest)

/-- The directory a path is in and the name in it. For a path with a slash whose directory exists
`find_in_dir` stores the size through a null pointer. -/
inductive Parent where
  | missing
  | fault
  | inDir (cluster : ℕ) (filename : List UInt8)
  deriving DecidableEq

def resolveParent (d : δ) (path : List UInt8) : Option Parent :=
  match pathTail path with
  | none => some (.inDir g.rootCluster path)
  | some _ =>
    if 63 < (pathHead path).length then some .missing
    else do
      match ← findInDir dev g d g.rootCluster (to83 (pathHead path)) with
      | none => some .missing
      | some _ => some .fault

/-- The offset of a free entry within its sector. The sector is written back as it is. -/
def freeDirEntry (d : δ) (dirCluster : ℕ) : Option (Option ℕ × δ) :=
  (walkDir dev g visitFree d dirCluster).map fun w =>
    match w with
    | .found lba sec off =>
      match dev.write d lba sec with
      | (true, d) => (some off, d)
      | (false, d) => (none, d)
    | _ => (none, d)

/-- The chain of a directory is kept. -/
def deleteEntry (d : δ) (dirCluster : ℕ) (name : List UInt8) : Option (Bool × δ) := do
  match ← walkDir dev g (visitName name) d dirCluster with
  | .found lba sec (.entry off) =>
    match dev.write d lba (Function.update sec off 0xE5) with
    | (false, d) => some (false, d)
    | (true, d) =>
      if sec (off + 0xB) &&& 0x10 = 0 then
        (freeClusterChain dev g d (entryCluster sec off)).map (true, ·)
      else some (true, d)
  | _ => some (false, d)

end Mukrn.Fat32
