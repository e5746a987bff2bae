import Mathlib.Order.Interval.Finset.Nat
import Mukrn.Fat32.Volume
import Mukrn.Library.TableWalk

/-! The first table as an array of 32-bit entries. Cluster numbers have 28 bits, and the sectors
that `next_cluster` and `set_fat_entry` compute for them hold all of them apart, whatever the table
contains. -/
namespace Mukrn.Fat32
open ByteMemory TableWalk

namespace Geometry

/-- The fields have the widths of the statics. -/
structure Sized (g : Geometry) : Prop where
  bytes_lt : g.bytesPerSector < 2 ^ 16
  cluster_lt : g.sectorsPerCluster < 2 ^ 8
  reserved_lt : g.reservedSectors < 2 ^ 16
  fats_lt : g.numFats < 2 ^ 8
  perFat_lt : g.sectorsPerFat < 2 ^ 32
  root_lt : g.rootCluster < 2 ^ 32

/-- Entries are words that do not cross the end of a sector. -/
structure Words (g : Geometry) : Prop extends g.Sized where
  pos : 0 < g.bytesPerSector
  le : g.bytesPerSector ≤ 512
  dvd : 4 ∣ g.bytesPerSector

theorem Sized.words {g : Geometry} (h : g.Sized) (h512 : g.bytesPerSector = 512) : g.Words :=
  ⟨h, by omega, by omega, ⟨128, h512⟩⟩

/-- The entry that `next_cluster` and `set_fat_entry` access for a cluster. -/
def fatEntry (g : Geometry) (S : ℕ → Sector) (c : ℕ) : ℕ :=
  load (S (g.fatSector c)) (g.fatOffset c) 4

/-- The disk after the low bits of an entry have been replaced. -/
def setEntry (g : Geometry) (S : ℕ → Sector) (c v : ℕ) : ℕ → Sector :=
  Function.update S (g.fatSector c)
    (store (S (g.fatSector c)) (g.fatOffset c) 4 (g.fatEntry S c / 2 ^ 28 * 2 ^ 28 + v % 2 ^ 28))

variable {g : Geometry} {S : ℕ → Sector} {c e : ℕ}

theorem fatSector_lt (g : Geometry) (c : ℕ) : g.fatSector c < 2 ^ 32 := Nat.mod_lt _ (by decide)

theorem fatEntry_lt (g : Geometry) (S : ℕ → Sector) (c : ℕ) : g.fatEntry S c < 2 ^ 32 := load_lt ..

/-- The place of an entry with sectors of 512 bytes. -/
theorem Sized.place (hg : g.Sized) (h512 : g.bytesPerSector = 512) (hc : c < 2 ^ 28) :
    g.fatSector c = g.reservedSectors + c / 128 ∧ g.fatOffset c = 4 * (c % 128) := by
  have hres := hg.reserved_lt
  have hoff : c * 4 % 2 ^ 32 = c * 4 := Nat.mod_eq_of_lt (by omega)
  rw [fatSector, fatOffset, hoff, h512]
  omega

/-- No two entries overlap. -/
theorem Words.apart (hg : g.Words) (hne : c % 2 ^ 30 ≠ e % 2 ^ 30) :
    g.fatSector c ≠ g.fatSector e ∨ g.fatOffset c + 4 ≤ g.fatOffset e ∨
      g.fatOffset e + 4 ≤ g.fatOffset c := by
  have hres := hg.reserved_lt
  obtain ⟨k, hk⟩ := hg.dvd
  -- an offset in the table is a multiple of four, and so is what remains of it in a sector
  have hsplit (a : ℕ) : a * 4 % 2 ^ 32 = 4 * (a % 2 ^ 30) ∧
      a * 4 % 2 ^ 32 / g.bytesPerSector = a % 2 ^ 30 / k ∧
      a * 4 % 2 ^ 32 % g.bytesPerSector = 4 * (a % 2 ^ 30 % k) := by
    have hoff : a * 4 % 2 ^ 32 = 4 * (a % 2 ^ 30) := by omega
    rw [hoff, hk]
    exact ⟨rfl, Nat.mul_div_mul_left _ _ (by decide), Nat.mul_mod_mul_left ..⟩
  obtain ⟨-, hqc, hrc⟩ := hsplit c
  obtain ⟨-, hqe, hre⟩ := hsplit e
  have hlt (a : ℕ) : a % 2 ^ 30 / k < 2 ^ 30 :=
    (Nat.div_le_self _ _).trans_lt (Nat.mod_lt _ (by decide))
  have hc := hlt c
  have he := hlt e
  have hpair : c % 2 ^ 30 / k ≠ e % 2 ^ 30 / k ∨ c % 2 ^ 30 % k ≠ e % 2 ^ 30 % k := by
    by_contra hsame
    push Not at hsame
    apply hne
    rw [← Nat.div_add_mod (c % 2 ^ 30) k, ← Nat.div_add_mod (e % 2 ^ 30) k, hsame.1, hsame.2]
  rw [fatSector, fatSector, fatOffset, fatOffset, hqc, hqe, hrc, hre]
  generalize c % 2 ^ 30 / k = q at hc hpair ⊢
  generalize e % 2 ^ 30 / k = q' at he hpair ⊢
  omega

theorem fatEntry_setEntry_self (g : Geometry) (S : ℕ → Sector) (c v : ℕ) :
    g.fatEntry (g.setEntry S c v) c = g.fatEntry S c / 2 ^ 28 * 2 ^ 28 + v % 2 ^ 28 := by
  have hlt := g.fatEntry_lt S c
  conv_lhs => rw [fatEntry, setEntry, Function.update_self, load_store]
  exact Nat.mod_eq_of_lt (by omega)

theorem Words.fatEntry_setEntry_of_ne (hg : g.Words) (hne : c % 2 ^ 30 ≠ e % 2 ^ 30) (v : ℕ) :
    g.fatEntry (g.setEntry S c v) e = g.fatEntry S e := by
  unfold fatEntry setEntry
  by_cases hsec : g.fatSector e = g.fatSector c
  · rw [hsec, Function.update_self]
    apply load_store_outside
    rcases hg.apart hne with h | h
    · exact absurd hsec.symm h
    · exact h.symm
  · rw [Function.update_of_ne hsec]

/-- Only the four bytes of the entry change. -/
theorem setEntry_outside {lba i : ℕ} (v : ℕ)
    (h : ¬ (lba = g.fatSector c ∧ g.fatOffset c ≤ i ∧ i < g.fatOffset c + 4)) :
    g.setEntry S c v lba i = S lba i := by
  unfold setEntry
  by_cases hlba : lba = g.fatSector c
  · rw [hlba, Function.update_self]
    exact fill_outside (by omega)
  · rw [Function.update_of_ne hlba]

end Geometry

/-- `init_fs` reads the fields with the widths of the statics. -/
theorem initFs_sized {δ : Type} {dev : Device δ} {d : δ} {g : Geometry}
    (h : initFs dev d = some g) : g.Sized := by
  obtain ⟨sec, -, rfl⟩ := Option.map_eq_some_iff.mp h
  constructor <;> exact load_lt ..

section Array

variable {δ : Type} (D : ReliableDisk δ) {g : Geometry} {d : δ} {c : ℕ}

theorem nextCluster_entry (g : Geometry) (d : δ) (c : ℕ) :
    nextCluster D.toDevice g d c = g.fatEntry (D.sectors d) c % 2 ^ 28 := by
  rw [nextCluster, D.read_eq _ _ (g.fatSector_lt c)]
  rfl

theorem setFatEntry_entry (g : Geometry) (d : δ) (c v : ℕ) :
    ∃ d', setFatEntry D.toDevice g d c v = (true, d') ∧
      D.sectors d' = g.setEntry (D.sectors d) c v := by
  have hlt := g.fatSector_lt c
  simp only [setFatEntry, D.read_eq _ _ hlt]
  exact ⟨_, Prod.ext (D.write_ok _ _ _ hlt) rfl, D.write_sectors _ _ _ hlt⟩

/-- Storing a value under a cluster number replaces the low 28 bits of this entry, and nothing else
on the disk changes. -/
theorem setFatEntry_array (hg : g.Sized) (h512 : g.bytesPerSector = 512) (d : δ) (hc : c < 2 ^ 28)
    (v : ℕ) :
    ∃ d', setFatEntry D.toDevice g d c v = (true, d') ∧
      nextCluster D.toDevice g d' c = v % 2 ^ 28 ∧
      (∀ e < 2 ^ 28, e ≠ c → nextCluster D.toDevice g d' e = nextCluster D.toDevice g d e) ∧
      g.fatEntry (D.sectors d') c / 2 ^ 28 = g.fatEntry (D.sectors d) c / 2 ^ 28 ∧
      ∀ lba i, ¬ (lba = g.reservedSectors + c / 128 ∧
          4 * (c % 128) ≤ i ∧ i < 4 * (c % 128) + 4) →
        D.sectors d' lba i = D.sectors d lba i := by
  obtain ⟨d', hset, hd'⟩ := setFatEntry_entry D g d c v
  have hself := g.fatEntry_setEntry_self (D.sectors d) c v
  rw [← hd'] at hself
  refine ⟨d', hset, ?_, ?_, ?_, ?_⟩
  · rw [nextCluster_entry, hself]
    omega
  · intro e he hne
    rw [nextCluster_entry, nextCluster_entry, hd',
      (hg.words h512).fatEntry_setEntry_of_ne (by omega)]
  · omega
  · intro lba i hout
    obtain ⟨hsec, hoff⟩ := hg.place h512 hc
    rw [hd']
    apply Geometry.setEntry_outside
    rwa [hsec, hoff]

theorem setFatEntry_array_sample :
    ∃ S', setFatEntry arrayDisk.toDevice ⟨512, 1, 32, 2, 8, 2⟩ (fun _ _ => 0xFF) 129 7 =
    (true, S') ∧
      nextCluster arrayDisk.toDevice ⟨512, 1, 32, 2, 8, 2⟩ S' 129 = 7 ∧
      nextCluster arrayDisk.toDevice ⟨512, 1, 32, 2, 8, 2⟩ S' 1 = 0x0FFFFFFF := by
  obtain ⟨S', hset, hself, hother, -⟩ := setFatEntry_array arrayDisk (g := ⟨512, 1, 32, 2, 8, 2⟩)
    ⟨by decide, by decide, by decide, by decide, by decide, by decide⟩ rfl
    (fun _ _ => 0xFF) (c := 129) (by decide) 7
  refine ⟨S', hset, hself, ?_⟩
  rw [hother 1 (by decide) (by decide)]
  decide

end Array

section Free

variable {δ : Type} (D : ReliableDisk δ) {g : Geometry} {d : δ} {c n : ℕ}

/-- The words of the table for all cluster numbers. -/
def ReliableDisk.Entries (D : ReliableDisk δ) (g : Geometry) (d : δ) (t : ℕ → ℕ) : Prop :=
  ∀ c < 2 ^ 28, g.fatEntry (D.sectors d) c = t c

/-- The link in an entry. -/
def lowBits (w : ℕ) : ℕ := w % 2 ^ 28

/-- What is left of an entry that is set to zero. -/
def highBits (w : ℕ) : ℕ := w / 2 ^ 28 * 2 ^ 28

theorem isLink_iff : isLink c = true ↔ 2 ≤ c ∧ c < eoc := by
  simp [isLink, isEoc]

theorem lt_of_isLink (h : isLink c = true) : c < 2 ^ 28 :=
  (isLink_iff.mp h).2.trans (by decide)

theorem setFatEntry_entries (hg : g.Words) {t : ℕ → ℕ} (ht : D.Entries g d t) (hc : c < 2 ^ 28)
    (v : ℕ) :
    ∃ d', setFatEntry D.toDevice g d c v = (true, d') ∧
      D.Entries g d' (Function.update t c (highBits (t c) + v % 2 ^ 28)) := by
  obtain ⟨d', hset, hd'⟩ := setFatEntry_entry D g d c v
  refine ⟨d', hset, fun e he => ?_⟩
  rw [hd']
  by_cases hec : e = c
  · rw [hec, g.fatEntry_setEntry_self, Function.update_self, ht c hc, highBits]
  · rw [hg.fatEntry_setEntry_of_ne (by omega), Function.update_of_ne hec, ht e he]

/-- The loop on the disk wipes the table as the walk of the library does. -/
theorem freeChainLoop_wipeWalk (hg : g.Words) {t t' : ℕ → ℕ} (ht : D.Entries g d t)
    (hwalk : wipeWalk (fun c => isLink c = true) lowBits highBits n t c = some t') :
    ∃ d', freeChainLoop D.toDevice g n d c = some d' ∧ D.Entries g d' t' := by
  induction n generalizing d c t with
  | zero => cases hwalk
  | succ n ih =>
    rw [wipeWalk] at hwalk
    rw [freeChainLoop]
    split at hwalk
    next hlink =>
      have hlt := lt_of_isLink hlink
      obtain ⟨d₁, hset, hd₁⟩ := setFatEntry_entries D hg ht hlt 0
      rw [Nat.zero_mod, Nat.add_zero] at hd₁
      rw [if_pos hlink, hset, nextCluster_entry, ht c hlt]
      exact ih hd₁ hwalk
    next hlink =>
      obtain rfl := Option.some.inj hwalk
      exact ⟨d, if_neg hlink, ht⟩

/-- Freeing a chain ends on every table, and wipes what is reached from the start. -/
theorem freeClusterChain_wipes (hg : g.Words) (d : δ) (start : ℕ) :
    ∃ d' t', freeClusterChain D.toDevice g d start = some d' ∧ D.Entries g d' t' ∧ ∀ c,
      (Visits (fun c => isLink c = true) (nextCluster D.toDevice g d) start c →
        t' c = highBits (g.fatEntry (D.sectors d) c)) ∧
      (¬ Visits (fun c => isLink c = true) (nextCluster D.toDevice g d) start c →
        t' c = g.fatEntry (D.sectors d) c) := by
  have hcells (c : ℕ) (hc : isLink c = true) : c ∈ Finset.Ico 2 eoc :=
    Finset.mem_Ico.mpr (isLink_iff.mp hc)
  have hwipe (w : ℕ) : ¬ isLink (lowBits (highBits w)) = true := by
    rw [lowBits, highBits, Nat.mul_mod_left]
    decide
  have hidem (w : ℕ) : highBits (highBits w) = highBits w := by
    unfold highBits
    omega
  obtain ⟨t', hwalk, hspec⟩ := wipeWalk_spec (T := Finset.Ico 2 eoc) hcells hwipe hidem
    (n := maxSteps) (by rw [Nat.card_Ico]; decide) (g.fatEntry (D.sectors d)) start
  obtain ⟨d', hfree, hd'⟩ := freeChainLoop_wipeWalk D hg (fun c _ => rfl) hwalk
  have hnext : nextCluster D.toDevice g d = fun b => lowBits (g.fatEntry (D.sectors d) b) :=
    funext (nextCluster_entry D g d)
  rw [hnext]
  exact ⟨d', t', hfree, hd', hspec⟩

/-- On every table, also with cycles, freeing a chain ends. It clears the entries that are reached
from the start through links, leaves all others, and keeps the high bits of every entry. -/
theorem freeClusterChain_clears (hg : g.Sized) (h512 : g.bytesPerSector = 512) (d : δ)
    (start : ℕ) :
    ∃ d', freeClusterChain D.toDevice g d start = some d' ∧ ∀ c < 2 ^ 28,
      (Visits (fun c => isLink c = true) (nextCluster D.toDevice g d) start c →
        nextCluster D.toDevice g d' c = 0) ∧
      (¬ Visits (fun c => isLink c = true) (nextCluster D.toDevice g d) start c →
        g.fatEntry (D.sectors d') c = g.fatEntry (D.sectors d) c) ∧
      g.fatEntry (D.sectors d') c / 2 ^ 28 = g.fatEntry (D.sectors d) c / 2 ^ 28 := by
  obtain ⟨d', t', hfree, hd', hspec⟩ := freeClusterChain_wipes D (hg.words h512) d start
  refine ⟨d', hfree, fun c hc => ?_⟩
  obtain ⟨hvis, hnot⟩ := hspec c
  rw [nextCluster_entry, hd' c hc]
  refine ⟨fun h => ?_, hnot, ?_⟩
  · rw [hvis h, highBits, Nat.mul_mod_left]
  · by_cases h : Visits (fun c => isLink c = true) (nextCluster D.toDevice g d) start c
    · rw [hvis h, highBits]
      omega
    · rw [hnot h]

/-- Two clusters that link to each other, and a third that is not on their chain. -/
theorem freeClusterChain_clears_sample : ∃ S S' : ℕ → Sector,
    nextCluster arrayDisk.toDevice ⟨512, 1, 32, 2, 8, 2⟩ S 2 = 3 ∧
    nextCluster arrayDisk.toDevice ⟨512, 1, 32, 2, 8, 2⟩ S 3 = 2 ∧
    freeClusterChain arrayDisk.toDevice ⟨512, 1, 32, 2, 8, 2⟩ S 2 = some S' ∧
    nextCluster arrayDisk.toDevice ⟨512, 1, 32, 2, 8, 2⟩ S' 2 = 0 ∧
    nextCluster arrayDisk.toDevice ⟨512, 1, 32, 2, 8, 2⟩ S' 3 = 0 ∧
    nextCluster arrayDisk.toDevice ⟨512, 1, 32, 2, 8, 2⟩ S' 4 = 0x0FFFFFFF := by
  obtain ⟨S, hS⟩ : ∃ S : ℕ → Sector, S = fun _ => store (store (fun _ => 0xFF) 8 4 3) 12 4 2 :=
    ⟨_, rfl⟩
  have h2 : nextCluster arrayDisk.toDevice ⟨512, 1, 32, 2, 8, 2⟩ S 2 = 3 := by
    rw [hS]
    decide
  have h3 : nextCluster arrayDisk.toDevice ⟨512, 1, 32, 2, 8, 2⟩ S 3 = 2 := by
    rw [hS]
    decide
  have h4 : nextCluster arrayDisk.toDevice ⟨512, 1, 32, 2, 8, 2⟩ S 4 = 0x0FFFFFFF := by
    rw [hS]
    decide
  obtain ⟨S', hfree, hspec⟩ := freeClusterChain_clears arrayDisk (g := ⟨512, 1, 32, 2, 8, 2⟩)
    ⟨by decide, by decide, by decide, by decide, by decide, by decide⟩ rfl S 2
  have hvis2 : Visits (fun c => isLink c = true)
      (nextCluster arrayDisk.toDevice ⟨512, 1, 32, 2, 8, 2⟩ S) 2 2 := .start rfl
  have hvis3 := hvis2.step (by rw [h2]; rfl)
  rw [h2] at hvis3
  have honly (c : ℕ) (hc : Visits (fun c => isLink c = true)
      (nextCluster arrayDisk.toDevice ⟨512, 1, 32, 2, 8, 2⟩ S) 2 c) : c = 2 ∨ c = 3 := by
    induction hc with
    | start => exact .inl rfl
    | step _ _ ih =>
      rcases ih with rfl | rfl
      · exact .inr h2
      · exact .inl h3
  refine ⟨S, S', h2, h3, hfree, (hspec 2 (by decide)).1 hvis2, (hspec 3 (by decide)).1 hvis3, ?_⟩
  have hkeep := (hspec 4 (by decide)).2.1 fun hc => by simpa using honly 4 hc
  rw [nextCluster_entry, hkeep, ← nextCluster_entry, h4]

end Free

end Mukrn.Fat32
