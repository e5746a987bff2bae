import Mukrn.Fat32.FatArray

/-! Calls that fail now and then. `next_cluster` and `set_fat_entry` read the same sector one after
the other, so that the first read may fail where the second succeeds. The functions of the table are
written here for calls that change the state of the disk when they read as well. -/
namespace Mukrn.Fat32
open ByteMemory

/-- The two sector calls where reading has an effect. -/
structure Driver (δ : Type) where
  read : δ → ℕ → Option Sector × δ
  write : δ → ℕ → Sector → Bool × δ

namespace Driver

variable {δ : Type} (drv : Driver δ) (g : Geometry)

/-- A read that fails gives the same value as a free entry. -/
def nextCluster (d : δ) (c : ℕ) : ℕ × δ :=
  match drv.read d (g.fatSector c) with
  | (none, d) => (0, d)
  | (some sec, d) => (load sec (g.fatOffset c) 4 % 2 ^ 28, d)

def setFatEntry (d : δ) (c val : ℕ) : Bool × δ :=
  match drv.read d (g.fatSector c) with
  | (none, d) => (false, d)
  | (some sec, d) =>
    let old := load sec (g.fatOffset c) 4
    drv.write d (g.fatSector c)
      (store sec (g.fatOffset c) 4 (old / 2 ^ 28 * 2 ^ 28 + val % 2 ^ 28))

/-- The entry that reads as free is taken. -/
def takeCluster (d : δ) (c : ℕ) : ℕ × δ :=
  match drv.setFatEntry g d c eoc with
  | (false, d) => (0, d)
  | (true, d) => (c, d)

/-- The loop over `n` entries from `c` on. -/
def allocLoop : ℕ → δ → ℕ → ℕ × δ
  | 0, d, _ => (0, d)
  | n + 1, d, c =>
    match drv.nextCluster g d c with
    | (0, d) => drv.takeCluster g d c
    | (_, d) => allocLoop n d (c + 1)

def allocCluster (d : δ) : ℕ × δ := drv.allocLoop g (g.totalEntries - 2) d 2

end Driver

section Device

variable {δ : Type} (dev : Device δ) (g : Geometry)

/-- Reading leaves the disk as it is. -/
def Device.driver : Driver δ where
  read d lba := (dev.read d lba, d)
  write := dev.write

theorem Device.driver_nextCluster (d : δ) (c : ℕ) :
    dev.driver.nextCluster g d c = (nextCluster dev g d c, d) := by
  have hread : dev.driver.read d (g.fatSector c) = (dev.read d (g.fatSector c), d) := rfl
  rw [Driver.nextCluster, Fat32.nextCluster, hread]
  cases dev.read d (g.fatSector c) <;> rfl

theorem Device.driver_setFatEntry (d : δ) (c v : ℕ) :
    dev.driver.setFatEntry g d c v = setFatEntry dev g d c v := by
  have hread : dev.driver.read d (g.fatSector c) = (dev.read d (g.fatSector c), d) := rfl
  rw [Driver.setFatEntry, Fat32.setFatEntry, hread]
  cases dev.read d (g.fatSector c) <;> rfl

/-- Without effects of reading this is the function of the disk. -/
theorem Device.driver_allocCluster (d : δ) :
    dev.driver.allocCluster g d = allocCluster dev g d := by
  have hloop (n c : ℕ) : dev.driver.allocLoop g n d c =
      ((List.range' c n).find? fun c => Fat32.nextCluster dev g d c == 0).elim (0, d)
        (dev.driver.takeCluster g d) := by
    induction n generalizing c with
    | zero => rfl
    | succ n ih =>
      rw [Driver.allocLoop, dev.driver_nextCluster, List.range'_succ, List.find?_cons]
      cases hn : Fat32.nextCluster dev g d c with
      | zero => rfl
      | succ k => exact ih (c + 1)
  rw [Driver.allocCluster, hloop, Fat32.allocCluster]
  cases (List.range' 2 (g.totalEntries - 2)).find? fun c => Fat32.nextCluster dev g d c == 0 with
  | none => rfl
  | some c =>
    rcases hset : Fat32.setFatEntry dev g d c eoc with ⟨_ | _, d'⟩ <;>
      simp [Driver.takeCluster, dev.driver_setFatEntry, hset]

end Device

/-- Sectors, and the number of calls made so far. -/
structure Flaky where
  sectors : ℕ → Sector
  calls : ℕ

/-- Call number `i` succeeds when `works i` holds. A call that fails leaves the sectors alone. -/
def flaky (works : ℕ → Bool) : Driver Flaky where
  read d lba := (if works d.calls then some (d.sectors lba) else none, ⟨d.sectors, d.calls + 1⟩)
  write d lba sec :=
    if works d.calls then (true, ⟨Function.update d.sectors lba sec, d.calls + 1⟩)
    else (false, ⟨d.sectors, d.calls + 1⟩)

/-- The scan gets past the first `i` entries from `c` on: they can be read and are in use. -/
def ScanPasses (works : ℕ → Bool) (g : Geometry) (d : Flaky) (c i : ℕ) : Prop :=
  ∀ j < i, works (d.calls + j) = true ∧ g.fatEntry d.sectors (c + j) % 2 ^ 28 ≠ 0

section Flaky

variable {works : ℕ → Bool} {g : Geometry} {d : Flaky} {c n : ℕ}

theorem flaky_read (works : ℕ → Bool) (d : Flaky) (lba : ℕ) : (flaky works).read d lba =
    (if works d.calls then some (d.sectors lba) else none, ⟨d.sectors, d.calls + 1⟩) := rfl

theorem flaky_write (works : ℕ → Bool) (d : Flaky) (lba : ℕ) (sec : Sector) :
    (flaky works).write d lba sec =
      if works d.calls then (true, ⟨Function.update d.sectors lba sec, d.calls + 1⟩)
      else (false, ⟨d.sectors, d.calls + 1⟩) := rfl

theorem flaky_nextCluster (works : ℕ → Bool) (g : Geometry) (d : Flaky) (c : ℕ) :
    (flaky works).nextCluster g d c =
      (if works d.calls then g.fatEntry d.sectors c % 2 ^ 28 else 0, ⟨d.sectors, d.calls + 1⟩) := by
  rw [Driver.nextCluster, flaky_read]
  cases works d.calls <;> rfl

/-- Taking an entry needs two calls that succeed. -/
theorem flaky_takeCluster (works : ℕ → Bool) (g : Geometry) (d : Flaky) (c : ℕ) :
    ((flaky works).takeCluster g d c).1 =
        (if works d.calls && works (d.calls + 1) then c else 0) ∧
      (((flaky works).takeCluster g d c).1 ≠ 0 →
        ((flaky works).takeCluster g d c).2.sectors = g.setEntry d.sectors c eoc) := by
  rw [Driver.takeCluster, Driver.setFatEntry, flaky_read]
  cases works d.calls with
  | false => simp
  | true =>
    simp only [if_true, flaky_write]
    cases works (d.calls + 1) with
    | false => simp
    | true => exact ⟨rfl, fun _ => rfl⟩

/-- The scan ends at the first entry that cannot be read or is free, and takes it, or it gets past
all entries. -/
theorem flaky_allocLoop (works : ℕ → Bool) (g : Geometry) (n : ℕ) (d : Flaky) (c : ℕ) :
    (∃ i < n, ScanPasses works g d c i ∧
      (works (d.calls + i) = false ∨ g.fatEntry d.sectors (c + i) % 2 ^ 28 = 0) ∧
      (flaky works).allocLoop g n d c =
        (flaky works).takeCluster g ⟨d.sectors, d.calls + i + 1⟩ (c + i)) ∨
    ScanPasses works g d c n ∧ ((flaky works).allocLoop g n d c).1 = 0 := by
  induction n generalizing d c with
  | zero => exact .inr ⟨fun j hj => absurd hj (Nat.not_lt_zero j), rfl⟩
  | succ n ih =>
    rw [Driver.allocLoop, flaky_nextCluster]
    by_cases hpass : works d.calls = true ∧ g.fatEntry d.sectors c % 2 ^ 28 ≠ 0
    · -- the first entry is passed over, and the rest of the scan starts one call later
      obtain ⟨hw, hused⟩ := hpass
      obtain ⟨k, hk⟩ := Nat.exists_eq_succ_of_ne_zero hused
      have hshift (i : ℕ) : ScanPasses works g ⟨d.sectors, d.calls + 1⟩ (c + 1) i ↔
          ScanPasses works g d c (i + 1) := by
        refine Iff.trans ?_ Nat.forall_lt_succ_left.symm
        simp only [ScanPasses, Nat.add_zero, hw, ne_eq, hused, not_false_eq_true, and_self,
          true_and, Nat.add_assoc, Nat.add_comm 1]
      simp only [hw, if_true, hk]
      rcases ih ⟨d.sectors, d.calls + 1⟩ (c + 1) with ⟨i, hi, hpass, hstop, heq⟩ | ⟨hpass, heq⟩
      · refine .inl ⟨i + 1, by omega, (hshift i).mp hpass, ?_, ?_⟩
        · rwa [← Nat.add_assoc, Nat.add_right_comm, ← Nat.add_assoc, Nat.add_right_comm c]
        · rw [heq, Nat.add_right_comm d.calls 1 i, Nat.add_assoc c 1 i, Nat.add_comm 1 i,
            ← Nat.add_assoc d.calls i 1]
      · exact .inr ⟨(hshift n).mp hpass, heq⟩
    · have hread : (if works d.calls then g.fatEntry d.sectors c % 2 ^ 28 else 0) = 0 := by
        split
        next hw => exact not_not.mp fun hne => hpass ⟨hw, hne⟩
        · rfl
      refine .inl ⟨0, Nat.succ_pos n, fun j hj => absurd hj (Nat.not_lt_zero j), ?_, ?_⟩
      · rcases not_and_or.mp hpass with hw | hfree
        · exact .inl (by simpa using hw)
        · exact .inr (not_not.mp hfree)
      · rw [hread]
        rfl

theorem ScanPasses.not_stop {i i' : ℕ} (h : ScanPasses works g d c i) (hlt : i' < i) :
    ¬ (works (d.calls + i') = false ∨ g.fatEntry d.sectors (c + i') % 2 ^ 28 = 0) := by
  obtain ⟨hw, hused⟩ := h i' hlt
  rintro (hf | hfree)
  · rw [hw] at hf
    cases hf
  · exact hused hfree

/-- For every pattern of failures: the cluster taken was free and no other entry changes, exactly
when a read of the scan that fails at a cluster in use is followed by a failure of one of the two
calls that take it. The offset of an entry has 32 bits, so that numbers which agree modulo `2 ^ 30`
share their entry. -/
theorem flaky_allocCluster_iff (hg : g.Words) (works : ℕ → Bool) (d : Flaky) :
    (((flaky works).allocCluster g d).1 ≠ 0 →
      g.fatEntry d.sectors ((flaky works).allocCluster g d).1 % 2 ^ 28 = 0 ∧
      ∀ e, e % 2 ^ 30 ≠ ((flaky works).allocCluster g d).1 % 2 ^ 30 →
        g.fatEntry ((flaky works).allocCluster g d).2.sectors e = g.fatEntry d.sectors e) ↔
    ∀ i, 2 + i < g.totalEntries → ScanPasses works g d 2 i → works (d.calls + i) = false →
      works (d.calls + i + 1) = true → works (d.calls + i + 2) = true →
      g.fatEntry d.sectors (2 + i) % 2 ^ 28 = 0 := by
  rw [Driver.allocCluster]
  rcases flaky_allocLoop works g (g.totalEntries - 2) d 2 with
    ⟨a, ha, hpass, hstop, heq⟩ | ⟨hpass, heq⟩
  · obtain ⟨hfst, hsnd⟩ := flaky_takeCluster works g ⟨d.sectors, d.calls + a + 1⟩ (2 + a)
    rw [← heq] at hfst hsnd
    constructor
    · intro hsafe i hi hpass' hread hget hput
      have hia : i = a := by
        rcases Nat.lt_trichotomy i a with hlt | rfl | hgt
        · exact absurd (.inl hread) (hpass.not_stop hlt)
        · rfl
        · exact absurd hstop (hpass'.not_stop hgt)
      subst hia
      have hres : ((flaky works).allocLoop g (g.totalEntries - 2) d 2).1 = 2 + i := by
        rw [hfst, if_pos (by simp [hget, hput])]
      rw [hres] at hsafe
      exact (hsafe (by omega)).1
    · intro hcond hne
      have hboth : (works (d.calls + a + 1) && works (d.calls + a + 1 + 1)) = true := by
        by_contra hfail
        rw [if_neg hfail] at hfst
        exact hne hfst
      rw [hsnd hne]
      rw [if_pos hboth] at hfst
      rw [hfst]
      obtain ⟨hget, hput⟩ := Bool.and_eq_true_iff.mp hboth
      refine ⟨?_, fun e he => hg.fatEntry_setEntry_of_ne he.symm eoc⟩
      rcases hstop with hread | hfree
      · exact hcond a (by omega) hpass hread hget hput
      · exact hfree
  · refine iff_of_true (fun hne => absurd heq hne) fun i hi _ hread => ?_
    exact absurd (.inl hread) (hpass.not_stop (by omega))

/-- Cluster 2 is in use. The read for cluster 3 fails, but that one is free. -/
theorem flaky_allocCluster_sample : ∃ S d',
    (flaky fun i => i != 1).allocCluster ⟨512, 1, 32, 2, 1, 2⟩ ⟨S, 0⟩ = (3, d') ∧
    Geometry.fatEntry ⟨512, 1, 32, 2, 1, 2⟩ S 2 = 7 ∧
    Geometry.fatEntry ⟨512, 1, 32, 2, 1, 2⟩ S 3 % 2 ^ 28 = 0 ∧
    Geometry.fatEntry ⟨512, 1, 32, 2, 1, 2⟩ d'.sectors 2 = 7 := by
  obtain ⟨S, hS⟩ : ∃ S : ℕ → Sector, S = fun _ => store (fun _ => 0) 8 4 7 := ⟨_, rfl⟩
  have hsized : Geometry.Sized ⟨512, 1, 32, 2, 1, 2⟩ :=
    ⟨by decide, by decide, by decide, by decide, by decide, by decide⟩
  have hused : Geometry.fatEntry ⟨512, 1, 32, 2, 1, 2⟩ S 2 = 7 := by
    rw [hS]
    decide
  have hthree : ((flaky fun i => i != 1).allocCluster ⟨512, 1, 32, 2, 1, 2⟩ ⟨S, 0⟩).1 = 3 := by
    rw [hS]
    decide
  obtain ⟨hfree, hkept⟩ := (flaky_allocCluster_iff (hsized.words rfl) (fun i => i != 1)
    ⟨S, 0⟩).mpr (fun i _ _ hread _ _ => by
      obtain rfl : i = 1 := by simpa using hread
      rw [hS]
      decide) (by rw [hthree]; decide)
  rw [hthree] at hfree hkept
  exact ⟨S, _, Prod.ext hthree rfl, hused, hfree, (hkept 2 (by decide)).trans hused⟩

/-- All clusters are in use. The first read fails and the next two calls succeed: cluster 2 is
handed out although its chain goes on at 7, and the link is lost. -/
theorem flaky_allocCluster_in_use : ∃ S d',
    (flaky fun i => i != 0).allocCluster ⟨512, 1, 32, 2, 1, 2⟩ ⟨S, 0⟩ = (2, d') ∧
    Geometry.fatEntry ⟨512, 1, 32, 2, 1, 2⟩ S 2 = 7 ∧
    Geometry.fatEntry ⟨512, 1, 32, 2, 1, 2⟩ d'.sectors 2 = eoc := by
  refine ⟨fun _ => store (fun _ => 0xFF) 8 4 7, _, Prod.ext (by decide) rfl, by decide, ?_⟩
  decide

end Flaky

end Mukrn.Fat32
