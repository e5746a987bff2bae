import Mukrn.Fat32.FatArray

/-! The entries of the table and the clusters of the volume. `alloc_cluster` searches all entries
that the sectors of the table have room for, also those behind the last cluster. -/
namespace Mukrn.Fat32
open ByteMemory

/-- The number of sectors of the volume in its boot sector. The server does not read it. -/
def totalSectors (sec : Sector) : ℕ := load sec 0x20 4

namespace Geometry

/-- The number behind the last cluster of a volume with `T` sectors. -/
def clusterEnd (g : Geometry) (T : ℕ) : ℕ :=
  (T - (g.reservedSectors + g.numFats * g.sectorsPerFat)) / g.sectorsPerCluster + 2

/-- Sectors of 512 bytes, tables inside the volume, and an entry for each of its clusters. -/
structure ValidFor (g : Geometry) (T : ℕ) : Prop where
  bytes_eq : g.bytesPerSector = 512
  cluster_pos : 0 < g.sectorsPerCluster
  fits : g.reservedSectors + g.numFats * g.sectorsPerFat ≤ T
  covers : g.clusterEnd T ≤ g.sectorsPerFat * 128

/-- The sector number of a cluster far behind the last one exceeds 32 bits and what is left of it
lies on the volume. -/
def WrapsOnto (g : Geometry) (T c : ℕ) : Prop :=
  2 ^ 32 ≤ g.reservedSectors + g.numFats * g.sectorsPerFat + (c - 2) * g.sectorsPerCluster ∧
    (g.reservedSectors + g.numFats * g.sectorsPerFat + (c - 2) * g.sectorsPerCluster) % 2 ^ 32 +
      g.sectorsPerCluster ≤ T

variable {g : Geometry} {T c : ℕ}

theorem clusterToSector_of_le (g : Geometry) (h2 : 2 ≤ c) (hc : c < 2 ^ 32) :
    g.clusterToSector c = (g.reservedSectors + g.numFats * g.sectorsPerFat +
      (c - 2) * g.sectorsPerCluster) % 2 ^ 32 := by
  have hcl : (c + 2 ^ 32 - 2) % 2 ^ 32 = c - 2 := by omega
  rw [clusterToSector, firstDataSector, hcl, Nat.mod_add_mod]

/-- The sectors of a cluster are on the volume when its number is below the end, or by accident. -/
theorem ValidFor.on_volume_iff (hv : g.ValidFor T) (hT : T < 2 ^ 32) (h2 : 2 ≤ c)
    (hc : c < 2 ^ 32) :
    g.clusterToSector c + g.sectorsPerCluster ≤ T ↔ c < g.clusterEnd T ∨ g.WrapsOnto T c := by
  rw [clusterToSector_of_le g h2 hc, WrapsOnto, clusterEnd]
  have hfits := hv.fits
  have hpos := hv.cluster_pos
  generalize g.reservedSectors + g.numFats * g.sectorsPerFat = first at hfits ⊢
  -- behind the tables there is room for the cluster exactly when its number is below the end
  have hroom : c < (T - first) / g.sectorsPerCluster + 2 ↔
      first + (c - 2) * g.sectorsPerCluster + g.sectorsPerCluster ≤ T := by
    have hdiv := Nat.le_div_iff_mul_le (x := c - 2 + 1) (y := T - first) hpos
    rw [Nat.add_mul, Nat.one_mul] at hdiv
    generalize (T - first) / g.sectorsPerCluster = q at hdiv ⊢
    omega
  rw [hroom]
  generalize (c - 2) * g.sectorsPerCluster = m
  omega

end Geometry

variable {δ : Type}

/-- The first entry that reads as free. -/
structure FirstFree (dev : Device δ) (g : Geometry) (d : δ) (c : ℕ) : Prop where
  two_le : 2 ≤ c
  lt : c < g.totalEntries
  free : nextCluster dev g d c = 0
  before : ∀ e, 2 ≤ e → e < c → nextCluster dev g d e ≠ 0

section Alloc

variable {dev : Device δ} (D : ReliableDisk δ) {g : Geometry} {d : δ} {T c : ℕ}

theorem find_eq_some_iff : ((List.range' 2 (g.totalEntries - 2)).find? fun c =>
      nextCluster dev g d c == 0) = some c ↔ FirstFree dev g d c := by
  rw [List.find?_range'_eq_some, List.mem_range'_1]
  constructor
  · rintro ⟨hfree, ⟨h2, hlt⟩, hbefore⟩
    exact ⟨h2, by omega, by simpa using hfree, fun e h2 he => by simpa using hbefore e h2 he⟩
  · rintro ⟨h2, hlt, hfree, hbefore⟩
    exact ⟨by simpa using hfree, ⟨h2, by omega⟩, fun e h2 he => by simpa using hbefore e h2 he⟩

theorem FirstFree.unique {c' : ℕ} (h : FirstFree dev g d c) (h' : FirstFree dev g d c') : c = c' :=
  Option.some.inj ((find_eq_some_iff.mpr h).symm.trans (find_eq_some_iff.mpr h'))

/-- What is taken is the first free entry. -/
theorem allocCluster_fst (h : FirstFree D.toDevice g d c) :
    (allocCluster D.toDevice g d).1 = c := by
  obtain ⟨d', hset, -⟩ := setFatEntry_entry D g d c eoc
  rw [allocCluster, find_eq_some_iff.mpr h]
  simp only [hset]

theorem allocCluster_fst_none (h : ∀ c, ¬ FirstFree D.toDevice g d c) :
    (allocCluster D.toDevice g d).1 = 0 := by
  unfold allocCluster
  cases hf : (List.range' 2 (g.totalEntries - 2)).find? fun c =>
      nextCluster D.toDevice g d c == 0 with
  | none => rfl
  | some c => exact absurd (find_eq_some_iff.mp hf) (h c)

/-- On a valid volume of `T` sectors the cluster that `alloc_cluster` takes exists exactly when the
first free entry belongs to one, for every content of the table. -/
theorem allocCluster_on_volume_iff (hT : T < 2 ^ 32) (hv : g.ValidFor T) (d : δ) :
    ((allocCluster D.toDevice g d).1 ≠ 0 →
      g.clusterToSector (allocCluster D.toDevice g d).1 + g.sectorsPerCluster ≤ T) ↔
    ∀ c, FirstFree D.toDevice g d c → c < g.clusterEnd T ∨ g.WrapsOnto T c := by
  have hcond {c : ℕ} (hc : FirstFree D.toDevice g d c) := hv.on_volume_iff hT hc.two_le
    (hc.lt.trans (Nat.mod_lt _ (by decide)))
  by_cases hex : ∃ a, FirstFree D.toDevice g d a
  · obtain ⟨a, ha⟩ := hex
    rw [allocCluster_fst D ha]
    constructor
    · intro hvol c hc
      obtain rfl := ha.unique hc
      exact (hcond ha).mp (hvol (by have := ha.two_le; omega))
    · intro hall _
      exact (hcond ha).mpr (hall a ha)
  · have hnone := not_exists.mp hex
    rw [allocCluster_fst_none D hnone]
    exact iff_of_true (fun h => absurd rfl h) fun c hc => absurd hc (hnone c)

end Alloc

/-- A boot sector for 65525 clusters of one sector behind two tables of 512 sectors. -/
def sampleBoot : Sector :=
  let sec := store (fun _ => 0) 0x0B 2 512
  let sec := store (store (store sec 0x0D 1 1) 0x0E 2 32) 0x10 1 2
  store (store (store sec 0x24 4 512) 0x2C 4 2) 0x20 4 66581

/-- The sample volume when the first `n` entries of its table are in use. -/
def almostFull (n : ℕ) (lba : ℕ) : Sector :=
  if lba = 0 then sampleBoot else fun i => if 128 * (lba - 32) + i / 4 < n then 0xFF else 0

theorem almostFull_boot (n : ℕ) :
    initFs arrayDisk.toDevice (almostFull n) = some ⟨512, 1, 32, 2, 512, 2⟩ := by
  have hread : arrayDisk.toDevice.read (almostFull n) 0 = some sampleBoot := rfl
  rw [initFs, hread]
  decide

theorem almostFull_firstFree {n : ℕ} (h2 : 2 ≤ n) (hn : n < 65536) :
    FirstFree arrayDisk.toDevice ⟨512, 1, 32, 2, 512, 2⟩ (almostFull n) n := by
  have hbyte (c i : ℕ) (hi : i < 4) :
      almostFull n (32 + c / 128) (4 * (c % 128) + i) = if c < n then 0xFF else 0 := by
    have hsec : 32 + c / 128 ≠ 0 := by omega
    have hidx : 128 * (32 + c / 128 - 32) + (4 * (c % 128) + i) / 4 = c := by omega
    simp only [almostFull, if_neg hsec, hidx]
  have hnext (c : ℕ) (hc : c < 65536) :
      nextCluster arrayDisk.toDevice ⟨512, 1, 32, 2, 512, 2⟩ (almostFull n) c =
        if c < n then 0x0FFFFFFF else 0 := by
    have hsized : Geometry.Sized ⟨512, 1, 32, 2, 512, 2⟩ :=
      ⟨by decide, by decide, by decide, by decide, by decide, by decide⟩
    obtain ⟨hsec, hoff⟩ := hsized.place rfl (c := c) (by omega)
    rw [nextCluster_entry, Geometry.fatEntry, hsec, hoff]
    have hload : load (arrayDisk.sectors (almostFull n) (32 + c / 128)) (4 * (c % 128)) 4 =
        load (fun _ => if c < n then 0xFF else 0) 0 4 := load_copy fun i hi => hbyte c i hi
    rw [hload]
    by_cases hlt : c < n
    · simp only [if_pos hlt]
      decide
    · simp only [if_neg hlt]
      decide
  have htotal : Geometry.totalEntries ⟨512, 1, 32, 2, 512, 2⟩ = 65536 := rfl
  refine ⟨h2, by rw [htotal]; exact hn, ?_, fun e _ he => ?_⟩
  · rw [hnext n hn, if_neg (lt_irrefl n)]
  · rw [hnext e (by omega), if_pos he]
    decide

theorem almostFull_total (n : ℕ) : totalSectors (almostFull n 0) = 66581 := by
  change totalSectors sampleBoot = 66581
  decide

theorem almostFull_valid (n : ℕ) :
    Geometry.ValidFor ⟨512, 1, 32, 2, 512, 2⟩ (totalSectors (almostFull n 0)) := by
  rw [almostFull_total]
  exact ⟨rfl, by decide, by decide, by decide⟩

/-- The last cluster is taken. -/
theorem allocCluster_on_volume_sample : ∃ S : ℕ → Sector, ∃ g,
    initFs arrayDisk.toDevice S = some g ∧ g.ValidFor (totalSectors (S 0)) ∧
    (allocCluster arrayDisk.toDevice g S).1 = 65526 ∧
    g.clusterToSector (allocCluster arrayDisk.toDevice g S).1 + g.sectorsPerCluster ≤
      totalSectors (S 0) := by
  have hfree := almostFull_firstFree (n := 65526) (by decide) (by decide)
  have halloc := allocCluster_fst arrayDisk hfree
  refine ⟨almostFull 65526, _, almostFull_boot _, almostFull_valid _, halloc, ?_⟩
  have hiff := allocCluster_on_volume_iff arrayDisk (load_lt ..) (almostFull_valid 65526)
    (almostFull 65526)
  refine hiff.mpr (fun c hc => .inl ?_) (by rw [halloc]; decide)
  obtain rfl := hfree.unique hc
  rw [almostFull_total]
  decide

/-- With all clusters in use the next entry is taken, which belongs to no sector of the volume. -/
theorem allocCluster_behind_volume : ∃ S : ℕ → Sector, ∃ g,
    initFs arrayDisk.toDevice S = some g ∧ g.ValidFor (totalSectors (S 0)) ∧
    (allocCluster arrayDisk.toDevice g S).1 = 65527 ∧
    totalSectors (S 0) < g.clusterToSector 65527 + g.sectorsPerCluster := by
  have hfree := almostFull_firstFree (n := 65527) (by decide) (by decide)
  refine ⟨almostFull 65527, _, almostFull_boot _, almostFull_valid _,
    allocCluster_fst arrayDisk hfree, ?_⟩
  rw [almostFull_total]
  decide

end Mukrn.Fat32
