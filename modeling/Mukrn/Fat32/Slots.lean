import Mukrn.Fat32.Table

/-! The entries of a directory, as slots of its clusters. -/
namespace Mukrn.Fat32
open ByteMemory

/-- The fields of a directory entry. -/
structure Entry where
  name : List UInt8
  attr : UInt8
  cluster : ℕ
  size : ℕ
  deriving DecidableEq

namespace Entry

variable (e : Entry)

def first : UInt8 := e.name.getD 0 0

/-- The end of the directory. -/
def isEnd : Bool := e.first == 0

def isFree : Bool := e.first == 0 || e.first == 0xE5

/-- Neither free nor a part of a long name nor a label. -/
def isLive : Bool := !e.isFree && e.attr &&& 0x08 == 0

def isDir : Bool := e.attr &&& 0x10 != 0

/-- The entries `.` and `..`, which lead back. -/
def isDot : Bool := e.first == 46

def isNamed (name : List UInt8) : Bool := e.isLive && e.name == name

end Entry

def readEntry (sec : Sector) (off : ℕ) : Entry where
  name := (List.range 11).map fun i => sec (off + i)
  attr := sec (off + 0xB)
  cluster := entryCluster sec off
  size := entrySize sec off

section Entries

variable {sec sec' : Sector} {off off' : ℕ}

theorem readEntry_first (sec : Sector) (off : ℕ) : (readEntry sec off).first = sec off := rfl

/-- An entry is 32 bytes. -/
theorem readEntry_copy (h : ∀ i < 32, sec (off + i) = sec' (off' + i)) :
    readEntry sec off = readEntry sec' off' := by
  have hload (k n : ℕ) (hk : k + n ≤ 32) : load sec (off + k) n = load sec' (off' + k) n := by
    apply load_copy
    intro i hi
    rw [Nat.add_assoc, Nat.add_assoc]
    exact h (k + i) (by omega)
  simp only [readEntry, entryCluster, entrySize, Entry.mk.injEq]
  refine ⟨?_, h 0xB (by decide), ?_, hload 0x1C 4 (by decide)⟩
  · apply List.map_congr_left
    intro i hi
    have hlt := List.mem_range.mp hi
    exact h i (by omega)
  · rw [hload 0x14 2 (by decide), hload 0x1A 2 (by decide)]

private theorem two_halves (v : ℕ) : v / 2 ^ 16 % 256 ^ 2 * 2 ^ 16 + v % 256 ^ 2 = v % 2 ^ 32 := by
  omega

theorem readEntry_patch (sec : Sector) (off start len : ℕ) :
    readEntry (patchEntry sec off start len) off =
      { readEntry sec off with cluster := start % 2 ^ 32, size := len % 2 ^ 32 } := by
  have hbyte (i : ℕ) (hi : i < 0x14) : patchEntry sec off start len (off + i) = sec (off + i) := by
    simp only [patchEntry, store]
    rw [fill_outside (by omega), fill_outside (by omega), fill_outside (by omega)]
  simp only [readEntry, Entry.mk.injEq]
  refine ⟨?_, hbyte 0xB (by decide), ?_, ?_⟩
  · apply List.map_congr_left
    intro i hi
    have hlt := List.mem_range.mp hi
    exact hbyte i (by omega)
  · simp only [entryCluster, patchEntry]
    rw [load_store, load_store_outside (by omega), load_store]
    exact two_halves start
  · simp only [entrySize, patchEntry]
    rw [load_store_outside (by omega), load_store_outside (by omega), load_store]
    rfl

theorem readEntry_patch_of_ne {j k : ℕ} (h : j ≠ k) (sec : Sector) (start len : ℕ) :
    readEntry (patchEntry sec (32 * k) start len) (32 * j) = readEntry sec (32 * j) := by
  apply readEntry_copy
  intro i hi
  simp only [patchEntry, store]
  rw [fill_outside (by omega), fill_outside (by omega), fill_outside (by omega)]

theorem readEntry_fill (sec : Sector) (off : ℕ) (e : Mem) :
    readEntry (fill sec off 32 e) off = readEntry e 0 := by
  apply readEntry_copy
  intro i hi
  rw [fill_inside (by omega) (by omega), Nat.add_sub_cancel_left, Nat.zero_add]

theorem readEntry_fill_of_ne {j k : ℕ} (h : j ≠ k) (sec : Sector) (e : Mem) :
    readEntry (fill sec (32 * k) 32 e) (32 * j) = readEntry sec (32 * j) := by
  apply readEntry_copy
  intro i hi
  exact fill_outside (by omega)

theorem readEntry_delete_of_ne {j k : ℕ} (h : j ≠ k) (sec : Sector) (b : UInt8) :
    readEntry (Function.update sec (32 * k) b) (32 * j) = readEntry sec (32 * j) := by
  apply readEntry_copy
  intro i hi
  exact Function.update_of_ne (by omega) ..

private theorem name_getD {name : List UInt8} (hn : name.length = 11) :
    (List.range 11).map (fun i => name.getD i 0) = name := by
  apply List.ext_getElem
  · simp [hn]
  · intro i h₁ h₂
    simp [h₂]

/-- The high half of the first cluster of a new file is lost. -/
theorem readEntry_fileEntry {name : List UInt8} (hn : name.length = 11) (start len : ℕ) :
    readEntry (fileEntry name start len) 0 = ⟨name, 0x20, start % 2 ^ 16, len % 2 ^ 32⟩ := by
  have hname (i : ℕ) (hi : i < 11) : fileEntry name start len (0 + i) = name.getD i 0 := by
    simp only [fileEntry, store]
    rw [fill_outside (by omega), fill_outside (by omega), fill_outside (by omega),
      fill_outside (by omega), fill_outside (by omega), fill_outside (by omega),
      Function.update_of_ne (by omega), fill_inside (by omega) (by omega), Nat.zero_add,
      Nat.sub_zero]
  have hattr : fileEntry name start len (0 + 0xB) = 0x20 := by
    simp only [fileEntry, store]
    rw [fill_outside (by omega), fill_outside (by omega), fill_outside (by omega),
      fill_outside (by omega), fill_outside (by omega), fill_outside (by omega)]
    rfl
  have hhigh : load (fileEntry name start len) (0 + 0x14) 2 = 0 := by
    simp [fileEntry, load, fill]
  simp only [readEntry, Entry.mk.injEq]
  refine ⟨?_, hattr, ?_, ?_⟩
  · rw [← name_getD hn]
    apply List.map_congr_left
    intro i hi
    rw [name_getD hn]
    exact hname i (List.mem_range.mp hi)
  · rw [entryCluster, hhigh]
    simp only [fileEntry]
    rw [load_fill_outside (by omega), load_fill_outside (by omega), load_fill_outside (by omega),
      load_store_outside (by omega), load_store]
    omega
  · simp only [entrySize, fileEntry]
    rw [load_fill_outside (by omega), load_fill_outside (by omega), load_fill_outside (by omega),
      load_store_outside (by omega), load_store_outside (by omega), load_store]
    rfl

theorem readEntry_dirEntry {name : List UInt8} (hn : name.length = 11) (start : ℕ) :
    readEntry (dirEntry name start) 0 = ⟨name, 0x10, start % 2 ^ 32, 0⟩ := by
  have hname (i : ℕ) (hi : i < 11) : dirEntry name start (0 + i) = name.getD i 0 := by
    simp only [dirEntry, store]
    rw [fill_outside (by omega), fill_outside (by omega), Function.update_of_ne (by omega),
      fill_inside (by omega) (by omega), Nat.zero_add, Nat.sub_zero]
  have hattr : dirEntry name start (0 + 0xB) = 0x10 := by
    simp only [dirEntry, store]
    rw [fill_outside (by omega), fill_outside (by omega)]
    rfl
  simp only [readEntry, Entry.mk.injEq]
  refine ⟨?_, hattr, ?_, ?_⟩
  · rw [← name_getD hn]
    apply List.map_congr_left
    intro i hi
    rw [name_getD hn]
    exact hname i (List.mem_range.mp hi)
  · simp only [entryCluster, dirEntry]
    rw [load_store, load_store_outside (by omega), load_store]
    exact two_halves start
  · simp [entrySize, dirEntry, store, load, fill]

/-- The scan for a name in terms of the fields of an entry. -/
theorem visitEntry_eq {name : List UInt8} (hn : name.length = 11) (sec : Sector) (off : ℕ) :
    visitEntry name sec off =
      if (readEntry sec off).isEnd then some .endMark
      else if (readEntry sec off).isNamed name then some (.entry off) else none := by
  have hnamed : isNamed name sec off = ((readEntry sec off).name == name) := by
    rw [Bool.eq_iff_iff, beq_iff_eq, isNamed, List.all_eq_true]
    simp only [List.mem_range, beq_iff_eq, readEntry]
    constructor
    · intro h
      rw [← name_getD hn]
      apply List.map_congr_left
      intro i hi
      exact h i (List.mem_range.mp hi)
    · intro h i hi
      rw [← h]
      simp [hi]
  have hskip : isSkipped sec off =
      (sec off == 0xE5 || !((readEntry sec off).attr &&& 0x08 == 0)) := by
    simp only [isSkipped, readEntry]
    generalize sec (off + 0xB) = a
    by_cases h : a = 0x0F
    · have h8 : ((0x0F : UInt8) &&& 0x08 == 0) = false := by decide
      rw [h, h8]
      simp
    · have hf : (a == 0x0F) = false := beq_eq_false_iff_ne.mpr h
      rw [hf, Bool.or_false]
      rfl
  simp only [visitEntry, Entry.isNamed, Entry.isLive, Entry.isFree, Entry.isEnd, readEntry_first,
    hnamed, hskip, beq_iff_eq]
  by_cases h0 : sec off = 0
  · rw [if_pos h0, if_pos h0]
  · rw [if_neg h0, if_neg h0]
    by_cases h5 : sec off = 0xE5 <;>
      by_cases ha : (readEntry sec off).attr &&& 0x08 = 0 <;> simp [h0, h5, ha]

end Entries

end Mukrn.Fat32
