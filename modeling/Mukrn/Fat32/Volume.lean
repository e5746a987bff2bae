import Mukrn.Fat32.Server
import Mukrn.Library.LinkedStack

/-! A volume as the server means it: one table of links and the sectors of each cluster. On a
reliable disk with a sound layout every function on the table refines an update of that volume. -/
namespace Mukrn.Fat32
open ByteMemory

/-- A disk whose calls always succeed on an array of sectors. -/
structure ReliableDisk (δ : Type) extends Device δ where
  sectors : δ → ℕ → Sector
  read_eq : ∀ d lba, lba < 2 ^ 32 → read d lba = some (sectors d lba)
  write_ok : ∀ d lba sec, lba < 2 ^ 32 → (write d lba sec).1 = true
  write_sectors : ∀ d lba sec, lba < 2 ^ 32 →
    sectors (write d lba sec).2 = Function.update (sectors d) lba sec

/-- The array itself. -/
def arrayDisk : ReliableDisk (ℕ → Sector) where
  read S lba := some (S lba)
  write S lba sec := (true, Function.update S lba sec)
  sectors S := S
  read_eq _ _ _ := rfl
  write_ok _ _ _ _ := rfl
  write_sectors _ _ _ _ := rfl

/-- A geometry with sectors of 512 bytes, in which the tables and the clusters from 2 up to `limit`
lie behind each other and sector numbers do not wrap. -/
structure Layout extends Geometry where
  limit : ℕ
  bytes_eq : bytesPerSector = 512
  sectors_pos : 0 < sectorsPerCluster
  fats_pos : 0 < numFats
  limit_le : limit ≤ eoc
  limit_le_entries : limit ≤ sectorsPerFat * 128
  entries_le : sectorsPerFat ≤ 2 ^ 21
  fits : reservedSectors + numFats * sectorsPerFat + (limit - 2) * sectorsPerCluster ≤ 2 ^ 32

namespace Layout

variable (L : Layout) {c c' s s' : ℕ}

def IsCluster (c : ℕ) : Prop := 2 ≤ c ∧ c < L.limit

instance (c : ℕ) : Decidable (L.IsCluster c) := inferInstanceAs (Decidable (_ ∧ _))

/-- Sector `s` of cluster `c` on the disk. -/
def lba (c s : ℕ) : ℕ :=
  L.reservedSectors + L.numFats * L.sectorsPerFat + (c - 2) * L.sectorsPerCluster + s

/-- Entry `c` of the first table. -/
def word (S : ℕ → Sector) (c : ℕ) : ℕ := load (S (L.reservedSectors + c / 128)) (4 * (c % 128)) 4

variable {L}

theorem IsCluster.isLink (h : L.IsCluster c) : isLink c = true := by
  have hlt := h.2.trans_le L.limit_le
  simp [Fat32.isLink, isEoc, h.1, hlt]

theorem IsCluster.lt_entries (h : L.IsCluster c) : c < L.sectorsPerFat * 128 :=
  h.2.trans_le L.limit_le_entries

theorem sectorsPerFat_le : L.sectorsPerFat ≤ L.numFats * L.sectorsPerFat :=
  Nat.le_mul_of_pos_left _ L.fats_pos

theorem lt_two_pow (hc : c < L.sectorsPerFat * 128) : c < 2 ^ 28 := by
  have h := L.entries_le
  omega

theorem fatSector_lt (hc : c < L.sectorsPerFat * 128) :
    L.reservedSectors + c / 128 < L.reservedSectors + L.sectorsPerFat := by omega

theorem fatSector_eq (hc : c < L.sectorsPerFat * 128) :
    L.fatSector c = L.reservedSectors + c / 128 := by
  have hlt := lt_two_pow hc
  have hfits := L.fits
  have hle := L.sectorsPerFat_le
  have hsec := fatSector_lt hc
  have hdiv : c * 4 / 512 = c / 128 := by omega
  rw [Geometry.fatSector, L.bytes_eq, Nat.mod_eq_of_lt (a := c * 4) (by omega), hdiv]
  exact Nat.mod_eq_of_lt (by omega)

theorem fatOffset_eq (hc : c < L.sectorsPerFat * 128) : L.fatOffset c = 4 * (c % 128) := by
  have hlt := lt_two_pow hc
  rw [Geometry.fatOffset, L.bytes_eq, Nat.mod_eq_of_lt (a := c * 4) (by omega)]
  omega

theorem totalEntries_eq : L.totalEntries = L.sectorsPerFat * 128 := by
  have h := L.entries_le
  rw [Geometry.totalEntries, L.bytes_eq]
  exact Nat.mod_eq_of_lt (by omega)

theorem lba_lt (hc : L.IsCluster c) (hs : s < L.sectorsPerCluster) : L.lba c s < 2 ^ 32 := by
  have hfits := L.fits
  have hstep : (c - 2 + 1) * L.sectorsPerCluster ≤ (L.limit - 2) * L.sectorsPerCluster := by
    apply Nat.mul_le_mul_right
    have := hc.1
    have := hc.2
    omega
  rw [Nat.add_mul, Nat.one_mul] at hstep
  unfold lba
  omega

theorem clusterToSector_eq (hc : L.IsCluster c) : L.clusterToSector c = L.lba c 0 := by
  have hlt := lba_lt hc L.sectors_pos
  have h2 := hc.1
  have hc' := hc.2
  have he := L.limit_le
  unfold lba at hlt ⊢
  have hcl : (c + 2 ^ 32 - 2) % 2 ^ 32 = c - 2 := by
    unfold eoc at he
    omega
  rw [Geometry.clusterToSector, Geometry.firstDataSector, hcl, Nat.mod_add_mod, Nat.add_zero]
  exact Nat.mod_eq_of_lt hlt

theorem sectorAt_eq (hc : L.IsCluster c) (hs : s < L.sectorsPerCluster) :
    L.sectorAt c s = L.lba c s := by
  have hlt := lba_lt hc hs
  rw [Geometry.sectorAt, clusterToSector_eq hc]
  unfold lba at hlt ⊢
  rw [Nat.add_zero]
  exact Nat.mod_eq_of_lt hlt

/-- The clusters lie behind the tables. -/
theorem le_lba (c s : ℕ) : L.reservedSectors + L.numFats * L.sectorsPerFat ≤ L.lba c s := by
  unfold lba
  omega

theorem lba_inj (hc : L.IsCluster c) (hc' : L.IsCluster c') (hs : s < L.sectorsPerCluster)
    (hs' : s' < L.sectorsPerCluster) (h : L.lba c s = L.lba c' s') : c = c' ∧ s = s' := by
  unfold lba at h
  have h2 := hc.1
  have h2' := hc'.1
  have hpos := L.sectors_pos
  have hsum : (c - 2) * L.sectorsPerCluster + s = (c' - 2) * L.sectorsPerCluster + s' := by omega
  have hdiv (q r : ℕ) (hr : r < L.sectorsPerCluster) : (q * L.sectorsPerCluster + r) /
      L.sectorsPerCluster = q := by
    rw [Nat.mul_comm, Nat.mul_add_div hpos, Nat.div_eq_of_lt hr, Nat.add_zero]
  have hq := congrArg (· / L.sectorsPerCluster) hsum
  simp only [hdiv _ _ hs, hdiv _ _ hs'] at hq
  rw [hq] at hsum
  omega

end Layout

/-- The links between clusters and the contents of their sectors. -/
@[ext]
structure Volume where
  fat : ℕ → ℕ
  data : ℕ → ℕ → Sector

namespace Volume

def setFat (V : Volume) (c v : ℕ) : Volume := { V with fat := Function.update V.fat c v }

def setSector (V : Volume) (c s : ℕ) (sec : Sector) : Volume :=
  { V with data := Function.update V.data c (Function.update (V.data c) s sec) }

/-- The links of all clusters in the list are cleared. -/
def free (V : Volume) (l : List ℕ) : Volume :=
  { V with fat := fun c => if c ∈ l then 0 else V.fat c }

end Volume

namespace Layout

variable (L : Layout) {S S₀ : ℕ → Sector} {c s : ℕ}

/-- The volume on a disk. -/
def view (S : ℕ → Sector) : Volume where
  fat c := if L.IsCluster c then L.word S c % 2 ^ 28 else 0
  data c s := if L.IsCluster c ∧ s < L.sectorsPerCluster then S (L.lba c s) else fun _ => 0

variable {L}

theorem view_fat (hc : L.IsCluster c) : (L.view S).fat c = L.word S c % 2 ^ 28 := if_pos hc

theorem view_data (hc : L.IsCluster c) (hs : s < L.sectorsPerCluster) :
    (L.view S).data c s = S (L.lba c s) := if_pos ⟨hc, hs⟩

/-- One entry of the first table is stored. -/
def storeWord (L : Layout) (S : ℕ → Sector) (c w : ℕ) : ℕ → Sector :=
  Function.update S (L.reservedSectors + c / 128)
    (store (S (L.reservedSectors + c / 128)) (4 * (c % 128)) 4 w)

theorem word_storeWord (S : ℕ → Sector) (c w c' : ℕ) :
    L.word (L.storeWord S c w) c' = if c' = c then w % 2 ^ 32 else L.word S c' := by
  unfold word storeWord
  split
  next h =>
    rw [h, Function.update_self, load_store]
    rfl
  next h =>
    by_cases hs : L.reservedSectors + c' / 128 = L.reservedSectors + c / 128
    · rw [hs, Function.update_self]
      exact load_store_outside (by omega)
    · rw [Function.update_of_ne hs]

theorem view_storeWord (hc : L.IsCluster c) (w : ℕ) :
    L.view (L.storeWord S c w) = (L.view S).setFat c (w % 2 ^ 28) := by
  ext1
  · funext c'
    simp only [view, Volume.setFat, word_storeWord, Function.update_apply]
    by_cases h : c' = c
    · rw [if_pos h, if_pos h, h, if_pos hc, Nat.mod_mod_of_dvd _ (by decide)]
    · rw [if_neg h, if_neg h]
  · funext c' s'
    simp only [view, Volume.setFat, storeWord]
    have hlt := fatSector_lt hc.lt_entries
    have hle := L.sectorsPerFat_le
    have hlba := L.le_lba c' s'
    rw [Function.update_of_ne (by omega)]

theorem word_setSector (hc : c < L.sectorsPerFat * 128) (c' s : ℕ) (sec : Sector) :
    L.word (Function.update S (L.lba c' s) sec) c = L.word S c := by
  have hlt := fatSector_lt hc
  have hle := L.sectorsPerFat_le
  have hlba := L.le_lba c' s
  rw [word, Function.update_of_ne (by omega), word]

theorem view_setSector (hc : L.IsCluster c) (hs : s < L.sectorsPerCluster) (sec : Sector) :
    L.view (Function.update S (L.lba c s) sec) = (L.view S).setSector c s sec := by
  ext1
  · funext c'
    simp only [view, Volume.setSector]
    split
    next h => rw [word_setSector h.lt_entries]
    · rfl
  · funext c' s'
    simp only [view, Volume.setSector, Function.update_apply]
    by_cases hv : L.IsCluster c' ∧ s' < L.sectorsPerCluster
    · rw [if_pos hv]
      by_cases heq : L.lba c' s' = L.lba c s
      · obtain ⟨rfl, rfl⟩ := lba_inj hv.1 hc hv.2 hs heq
        simp
      · rw [if_neg heq]
        by_cases hcc : c' = c
        · subst hcc
          have hss : s' ≠ s := fun h => heq (h ▸ rfl)
          simp [hss, hv]
        · simp [hcc, hv]
    · rw [if_neg hv]
      split
      next hcc =>
        subst hcc
        have hss : s' ≠ s := fun h => hv ⟨hc, h ▸ hs⟩
        rw [Function.update_of_ne hss, if_neg hv]
      · exact (if_neg hv).symm

/-- Everything the server leaves alone is as it was in `S₀`, and the rest is the volume. -/
structure Holds (L : Layout) (S₀ S : ℕ → Sector) (V : Volume) : Prop where
  view_eq : L.view S = V
  high : ∀ c < L.sectorsPerFat * 128, L.word S c / 2 ^ 28 = L.word S₀ c / 2 ^ 28
  other : ∀ c < L.sectorsPerFat * 128, ¬ L.IsCluster c → L.word S c = L.word S₀ c
  copies : ∀ lba, L.reservedSectors + L.sectorsPerFat ≤ lba →
    lba < L.reservedSectors + L.numFats * L.sectorsPerFat → S lba = S₀ lba

/-- The tables of two disks differ in the first table and at the clusters of the list only. -/
structure TablesKept (L : Layout) (S S' : ℕ → Sector) (l : List ℕ) : Prop where
  word : ∀ c < L.sectorsPerFat * 128, c ∉ l → L.word S' c = L.word S c
  copies : ∀ lba, L.reservedSectors + L.sectorsPerFat ≤ lba →
    lba < L.reservedSectors + L.numFats * L.sectorsPerFat → S' lba = S lba

namespace Holds

variable {V : Volume}

theorem refl (S : ℕ → Sector) : L.Holds S S (L.view S) := by
  constructor <;> intros <;> rfl

theorem fat_eq (h : L.Holds S₀ S V) (hc : L.IsCluster c) : L.word S c % 2 ^ 28 = V.fat c := by
  rw [← h.view_eq, view_fat hc]

theorem data_eq (h : L.Holds S₀ S V) (hc : L.IsCluster c) (hs : s < L.sectorsPerCluster) :
    S (L.lba c s) = V.data c s := by
  rw [← h.view_eq, view_data hc hs]

/-- Two disks with the same link at a cluster have the same entry there. -/
theorem word_eq {S' : ℕ → Sector} {V' : Volume} (h : L.Holds S₀ S V) (h' : L.Holds S₀ S' V')
    (hfat : V'.fat c = V.fat c) (hc : c < L.sectorsPerFat * 128) : L.word S' c = L.word S c := by
  by_cases hcl : L.IsCluster c
  · have hlow : L.word S' c % 2 ^ 28 = L.word S c % 2 ^ 28 := by
      rw [h'.fat_eq hcl, hfat, h.fat_eq hcl]
    have hhigh := h.high c hc
    have hhigh' := h'.high c hc
    omega
  · rw [h'.other c hc hcl, h.other c hc hcl]

theorem tablesKept {S' : ℕ → Sector} {V' : Volume} {l : List ℕ} (h : L.Holds S₀ S V)
    (h' : L.Holds S₀ S' V') (hfat : ∀ c ∉ l, V'.fat c = V.fat c) : L.TablesKept S S' l := by
  constructor
  · exact fun c hc hl => h.word_eq h' (hfat c hl) hc
  · intro lba hle hlt
    rw [h'.copies lba hle hlt, h.copies lba hle hlt]

theorem storeWord (h : L.Holds S₀ S V) (hc : L.IsCluster c) {v w : ℕ} (hw : w < 2 ^ 32)
    (hlow : w % 2 ^ 28 = v) (hhigh : w / 2 ^ 28 = L.word S c / 2 ^ 28) :
    L.Holds S₀ (L.storeWord S c w) (V.setFat c v) := by
  constructor
  · rw [view_storeWord hc, h.view_eq, hlow]
  · intro c' hc'
    rw [word_storeWord]
    split
    next heq =>
      rw [Nat.mod_eq_of_lt hw, hhigh, heq]
      exact h.high c hc.lt_entries
    · exact h.high c' hc'
  · intro c' hc' hn
    have hne : c' ≠ c := fun he => hn (he ▸ hc)
    rw [word_storeWord, if_neg hne]
    exact h.other c' hc' hn
  · intro lba hle hlt
    have hsec := fatSector_lt hc.lt_entries
    rw [Layout.storeWord, Function.update_of_ne (by omega)]
    exact h.copies lba hle hlt

theorem setSector (h : L.Holds S₀ S V) (hc : L.IsCluster c) (hs : s < L.sectorsPerCluster)
    (sec : Sector) : L.Holds S₀ (Function.update S (L.lba c s) sec) (V.setSector c s sec) := by
  constructor
  · rw [view_setSector hc hs, h.view_eq]
  · intro c' hc'
    rw [word_setSector hc']
    exact h.high c' hc'
  · intro c' hc' hn
    rw [word_setSector hc']
    exact h.other c' hc' hn
  · intro lba hle hlt
    have hlba := L.le_lba c s
    rw [Function.update_of_ne (by omega)]
    exact h.copies lba hle hlt

end Holds
end Layout

end Mukrn.Fat32
