import Mathlib.Logic.Function.Basic
import Mukrn.Library.ByteMemory

/-! The disk of the FAT32 server `fat32.c`: the two sector calls, the geometry and the allocation
table. Arithmetic on `u32` wraps at `2 ^ 32`. -/
namespace Mukrn.Fat32
open ByteMemory

/-- The 512 bytes of a sector buffer. -/
abbrev Sector := Mem

/-- The calls `read_sector` and `write_sector` on the server's drive. A read that fails returns
nothing, a write says whether it succeeded. -/
structure Device (δ : Type) where
  read : δ → ℕ → Option Sector
  write : δ → ℕ → Sector → Bool × δ

/-- The statics that `init_fs` fills. -/
structure Geometry where
  bytesPerSector : ℕ
  sectorsPerCluster : ℕ
  reservedSectors : ℕ
  numFats : ℕ
  sectorsPerFat : ℕ
  rootCluster : ℕ
  deriving DecidableEq, Repr

/-- A loop over cluster numbers that goes on for this long has met a number twice. -/
def maxSteps : ℕ := 2 ^ 28

def eoc : ℕ := 0x0FFFFFF8

def isEoc (c : ℕ) : Bool := eoc ≤ c

/-- The loops over a chain go on while this holds. -/
def isLink (c : ℕ) : Bool := 2 ≤ c && !isEoc c

namespace Geometry

variable (g : Geometry)

def firstDataSector : ℕ := (g.reservedSectors + g.numFats * g.sectorsPerFat) % 2 ^ 32

def clusterToSector (c : ℕ) : ℕ :=
  (g.firstDataSector + (c + 2 ^ 32 - 2) % 2 ^ 32 * g.sectorsPerCluster) % 2 ^ 32

/-- Sector `s` of cluster `c`. -/
def sectorAt (c s : ℕ) : ℕ := (g.clusterToSector c + s) % 2 ^ 32

def fatSector (c : ℕ) : ℕ := (g.reservedSectors + c * 4 % 2 ^ 32 / g.bytesPerSector) % 2 ^ 32

def fatOffset (c : ℕ) : ℕ := c * 4 % 2 ^ 32 % g.bytesPerSector

def totalEntries : ℕ := g.sectorsPerFat * (g.bytesPerSector / 4) % 2 ^ 32

end Geometry

variable {δ : Type} (dev : Device δ) (g : Geometry)

def initFs (d : δ) : Option Geometry :=
  (dev.read d 0).map fun sec =>
    { bytesPerSector := load sec 0x0B 2
      sectorsPerCluster := load sec 0x0D 1
      reservedSectors := load sec 0x0E 2
      numFats := load sec 0x10 1
      sectorsPerFat := load sec 0x24 4
      rootCluster := load sec 0x2C 4 }

/-- The low 28 bits of a FAT entry, 0 when it cannot be read. -/
def nextCluster (d : δ) (c : ℕ) : ℕ :=
  match dev.read d (g.fatSector c) with
  | none => 0
  | some sec => load sec (g.fatOffset c) 4 % 2 ^ 28

/-- The high four bits of the entry stay. -/
def setFatEntry (d : δ) (c val : ℕ) : Bool × δ :=
  match dev.read d (g.fatSector c) with
  | none => (false, d)
  | some sec =>
    let old := load sec (g.fatOffset c) 4
    dev.write d (g.fatSector c)
      (store sec (g.fatOffset c) 4 (old / 2 ^ 28 * 2 ^ 28 + val % 2 ^ 28))

/-- The cluster taken, 0 when there is none. -/
def allocCluster (d : δ) : ℕ × δ :=
  match (List.range' 2 (g.totalEntries - 2)).find? fun c => nextCluster dev g d c == 0 with
  | none => (0, d)
  | some c =>
    match setFatEntry dev g d c eoc with
    | (false, d) => (0, d)
    | (true, d) => (c, d)

/-- At most `n` steps of the loop, nothing when it goes on. -/
def freeChainLoop : ℕ → δ → ℕ → Option δ
  | 0, _, _ => none
  | n + 1, d, c =>
    if isLink c then freeChainLoop n (setFatEntry dev g d c 0).2 (nextCluster dev g d c) else some d

def freeClusterChain (d : δ) (start : ℕ) : Option δ := freeChainLoop dev g maxSteps d start

end Mukrn.Fat32
