import Mathlib.Data.List.Find
import Mathlib.Data.List.Perm.Subperm
import Mukrn.Fat32.Volume

/-! Chains in the allocation table, and the functions of the server that read and change it. -/
namespace Mukrn.Fat32
open ByteMemory

/-- The link itself where a chain goes on, 0 where it ends. -/
def link (c : ℕ) : ℕ := if isLink c then c else 0

theorem link_of_isLink {c : ℕ} (h : isLink c = true) : link c = c := if_pos h

theorem isLink_of_link {c : ℕ} (h : link c ≠ 0) : isLink c = true := by
  by_contra hn
  exact h (if_neg hn)

/-- The chain from `s` visits these clusters and all of them are in use. -/
structure Layout.Chain (L : Layout) (V : Volume) (s : ℕ) (l : List ℕ) : Prop where
  linked : LinkedStack.Chain (fun c => link (V.fat c)) 0 (link s) l
  used : ∀ c ∈ l, L.IsCluster c ∧ V.fat c ≠ 0

namespace Layout.Chain

variable {L : Layout} {V V' : Volume} {s c : ℕ} {l l' : List ℕ}

theorem unique (h : L.Chain V s l) (h' : L.Chain V s l') : l = l' := h.linked.unique h'.linked

theorem nodup (h : L.Chain V s l) : l.Nodup := h.linked.nodup

/-- A chain only depends on the entries of its own clusters. -/
theorem congr (h : L.Chain V s l) (hl : ∀ c ∈ l, V'.fat c = V.fat c) : L.Chain V' s l := by
  constructor
  · apply h.linked.congr
    intro c hc
    rw [hl c hc]
  · intro c hc
    rw [hl c hc]
    exact h.used c hc

theorem not_link (h : L.Chain V s []) : isLink s = false := by
  have h0 : link s = 0 := h.linked
  by_contra hn
  have hs : isLink s = true := by simpa using hn
  rw [link_of_isLink hs] at h0
  subst h0
  cases hs

theorem of_not_link (h : isLink s = false) : L.Chain V s [] := by
  refine ⟨?_, fun c hc => by cases hc⟩
  change link s = 0
  simp [link, h]

/-- The first cluster of a chain is where it starts, and the rest is a chain. -/
theorem cons_iff : L.Chain V s (c :: l) ↔
    s = c ∧ L.IsCluster c ∧ V.fat c ≠ 0 ∧ L.Chain V (V.fat c) l := by
  constructor
  · rintro ⟨⟨hs, hn, hl⟩, hused⟩
    obtain ⟨hc, h0⟩ := hused c (by simp)
    have hs' : s = c := by
      rw [← hs, link_of_isLink]
      exact isLink_of_link (hs ▸ hn)
    exact ⟨hs', hc, h0, hl, fun a ha => hused a (by simp [ha])⟩
  · rintro ⟨rfl, hc, h0, hl, hused⟩
    refine ⟨⟨link_of_isLink hc.isLink, ?_, hl⟩, ?_⟩
    · have := hc.1
      omega
    · intro a ha
      rcases List.mem_cons.mp ha with rfl | ha
      · exact ⟨hc, h0⟩
      · exact hused a ha

/-- No chain is longer than there are cluster numbers. -/
theorem length_lt (h : L.Chain V s l) : l.length < maxSteps := by
  have hsub : l ⊆ List.range L.limit := fun c hc => List.mem_range.mpr (h.used c hc).1.2
  have hle := (List.subperm_of_subset h.nodup hsub).length_le
  have hlim := L.limit_le
  rw [List.length_range] at hle
  unfold eoc at hlim
  unfold maxSteps
  omega

/-- A chain of one cluster. -/
theorem single (hc : L.IsCluster c) (hv : eoc ≤ V.fat c) : L.Chain V c [c] := by
  have h0 : V.fat c ≠ 0 := by
    unfold eoc at hv
    omega
  refine cons_iff.mpr ⟨rfl, hc, h0, of_not_link ?_⟩
  simp [isLink, isEoc, hv]

end Layout.Chain

namespace Volume

@[simp] theorem setFat_fat (V : Volume) (c v c' : ℕ) :
    (V.setFat c v).fat c' = if c' = c then v else V.fat c' := Function.update_apply ..

@[simp] theorem setFat_data (V : Volume) (c v : ℕ) : (V.setFat c v).data = V.data := rfl

@[simp] theorem setSector_fat (V : Volume) (c s : ℕ) (sec : Sector) :
    (V.setSector c s sec).fat = V.fat := rfl

@[simp] theorem setSector_data (V : Volume) (c s c' s' : ℕ) (sec : Sector) :
    (V.setSector c s sec).data c' s' = if c' = c ∧ s' = s then sec else V.data c' s' := by
  simp only [setSector, Function.update_apply]
  by_cases hc : c' = c
  · subst hc
    simp [Function.update_apply]
  · simp [hc]

@[simp] theorem free_fat (V : Volume) (l : List ℕ) (c : ℕ) :
    (V.free l).fat c = if c ∈ l then 0 else V.fat c := rfl

@[simp] theorem free_data (V : Volume) (l : List ℕ) : (V.free l).data = V.data := rfl

theorem free_nil (V : Volume) : V.free [] = V := by
  ext1 <;> simp [free]

theorem free_cons (V : Volume) (c : ℕ) (l : List ℕ) : (V.setFat c 0).free l = V.free (c :: l) := by
  ext1
  · funext c'
    simp only [free_fat, setFat_fat, List.mem_cons]
    by_cases h : c' = c <;> by_cases hl : c' ∈ l <;> simp [h, hl]
  · rfl

/-- The first free cluster. -/
def firstFree (V : Volume) (L : Layout) : Option ℕ :=
  (List.range' 2 (L.sectorsPerFat * 128 - 2)).find? fun c => L.IsCluster c ∧ V.fat c = 0

theorem firstFree_spec {V : Volume} {L : Layout} {c : ℕ} (h : V.firstFree L = some c) :
    L.IsCluster c ∧ V.fat c = 0 := by
  have hp := List.find?_some h
  simpa using hp

end Volume

/-- The entries behind the last cluster are not free. -/
def Layout.Bounded (L : Layout) (S : ℕ → Sector) : Prop :=
  ∀ c, L.limit ≤ c → c < L.sectorsPerFat * 128 → L.word S c % 2 ^ 28 ≠ 0

section Refinement

variable {δ : Type} (D : ReliableDisk δ) {L : Layout} {S₀ : ℕ → Sector} {V : Volume} {d : δ}
  {c s : ℕ}

theorem fatSector_lt_two_pow (hc : c < L.sectorsPerFat * 128) : L.fatSector c < 2 ^ 32 := by
  have hfits := L.fits
  have hle := L.sectorsPerFat_le
  have hsec := L.fatSector_lt hc
  rw [Layout.fatSector_eq hc]
  omega

theorem nextCluster_word (hc : c < L.sectorsPerFat * 128) :
    nextCluster D.toDevice L.toGeometry d c = L.word (D.sectors d) c % 2 ^ 28 := by
  unfold nextCluster
  rw [D.read_eq _ _ (fatSector_lt_two_pow hc), Layout.fatSector_eq hc, Layout.fatOffset_eq hc]
  rfl

theorem nextCluster_eq (h : L.Holds S₀ (D.sectors d) V) (hc : L.IsCluster c) :
    nextCluster D.toDevice L.toGeometry d c = V.fat c := by
  rw [nextCluster_word D hc.lt_entries, h.fat_eq hc]

theorem setFatEntry_holds (h : L.Holds S₀ (D.sectors d) V) (hc : L.IsCluster c) (v : ℕ) :
    ∃ d', setFatEntry D.toDevice L.toGeometry d c v = (true, d') ∧
      L.Holds S₀ (D.sectors d') (V.setFat c (v % 2 ^ 28)) := by
  have hlt := fatSector_lt_two_pow hc.lt_entries
  have hword := load_lt (D.sectors d (L.reservedSectors + c / 128)) (4 * (c % 128)) 4
  simp only [setFatEntry, D.read_eq _ _ hlt]
  refine ⟨_, Prod.ext (D.write_ok _ _ _ hlt) rfl, ?_⟩
  rw [D.write_sectors _ _ _ hlt, Layout.fatSector_eq hc.lt_entries,
    Layout.fatOffset_eq hc.lt_entries]
  apply h.storeWord hc
  · omega
  · omega
  · unfold Layout.word
    omega

theorem read_sectorAt (h : L.Holds S₀ (D.sectors d) V) (hc : L.IsCluster c)
    (hs : s < L.sectorsPerCluster) : D.read d (L.sectorAt c s) = some (V.data c s) := by
  rw [Layout.sectorAt_eq hc hs, D.read_eq _ _ (Layout.lba_lt hc hs), h.data_eq hc hs]

theorem write_sectorAt (h : L.Holds S₀ (D.sectors d) V) (hc : L.IsCluster c)
    (hs : s < L.sectorsPerCluster) (sec : Sector) :
    ∃ d', D.write d (L.sectorAt c s) sec = (true, d') ∧
      L.Holds S₀ (D.sectors d') (V.setSector c s sec) := by
  have hlt := Layout.lba_lt hc hs
  rw [Layout.sectorAt_eq hc hs]
  refine ⟨_, Prod.ext (D.write_ok _ _ _ hlt) rfl, ?_⟩
  rw [D.write_sectors _ _ _ hlt]
  exact h.setSector hc hs sec

private theorem find_free (h : L.Holds S₀ (D.sectors d) V) (hb : L.Bounded S₀) :
    ((List.range' 2 (L.totalEntries - 2)).find? fun c =>
      nextCluster D.toDevice L.toGeometry d c == 0) = V.firstFree L := by
  rw [Layout.totalEntries_eq, Volume.firstFree]
  apply List.find?_congr
  intro c hc
  have hmem := List.mem_range'_1.mp hc
  have hlt : c < L.sectorsPerFat * 128 := by omega
  rw [Bool.eq_iff_iff, beq_iff_eq, decide_eq_true_iff]
  by_cases hcl : L.IsCluster c
  · rw [nextCluster_eq D h hcl]
    simp [hcl]
  · have hge : L.limit ≤ c := by
      by_contra hn
      exact hcl ⟨hmem.1, Nat.not_le.mp hn⟩
    have hne := hb c hge hlt
    rw [← h.other c hlt hcl] at hne
    rw [nextCluster_word D hlt]
    exact iff_of_false hne fun h => hcl h.1

theorem allocCluster_none (h : L.Holds S₀ (D.sectors d) V) (hb : L.Bounded S₀)
    (hf : V.firstFree L = none) : allocCluster D.toDevice L.toGeometry d = (0, d) := by
  simp only [allocCluster, find_free D h hb, hf]

theorem allocCluster_some (h : L.Holds S₀ (D.sectors d) V) (hb : L.Bounded S₀)
    (hf : V.firstFree L = some c) :
    ∃ d', allocCluster D.toDevice L.toGeometry d = (c, d') ∧
      L.Holds S₀ (D.sectors d') (V.setFat c eoc) := by
  obtain ⟨d', hset, hd'⟩ := setFatEntry_holds D h (Volume.firstFree_spec hf).1 eoc
  refine ⟨d', ?_, hd'⟩
  simp only [allocCluster, find_free D h hb, hf, hset]

theorem freeChainLoop_holds {l : List ℕ} {n : ℕ} (h : L.Holds S₀ (D.sectors d) V)
    (hl : L.Chain V c l) (hn : l.length < n) :
    ∃ d', freeChainLoop D.toDevice L.toGeometry n d c = some d' ∧
      L.Holds S₀ (D.sectors d') (V.free l) := by
  induction l generalizing n d c V with
  | nil =>
    cases n with
    | zero => cases hn
    | succ n =>
      rw [Volume.free_nil]
      exact ⟨d, by simp [freeChainLoop, hl.not_link], h⟩
  | cons a l ih =>
    cases n with
    | zero => cases hn
    | succ n =>
      have hnd := hl.nodup
      obtain ⟨rfl, hc, -, ht⟩ := Layout.Chain.cons_iff.mp hl
      obtain ⟨d₁, hset, hd₁⟩ := setFatEntry_holds D h hc 0
      have hne (b : ℕ) (hb : b ∈ l) : b ≠ c := fun he => (List.nodup_cons.mp hnd).1 (he ▸ hb)
      have ht' : L.Chain (V.setFat c (0 % 2 ^ 28)) (V.fat c) l := by
        apply ht.congr
        intro b hb
        rw [Volume.setFat_fat, if_neg (hne b hb)]
      obtain ⟨d', hfree, hd'⟩ := ih hd₁ ht' (Nat.lt_of_succ_lt_succ hn)
      refine ⟨d', ?_, ?_⟩
      · rw [freeChainLoop, if_pos hc.isLink, hset, nextCluster_eq D h hc]
        exact hfree
      · rw [← Volume.free_cons]
        exact hd'

theorem freeClusterChain_holds {l : List ℕ} (h : L.Holds S₀ (D.sectors d) V)
    (hl : L.Chain V c l) :
    ∃ d', freeClusterChain D.toDevice L.toGeometry d c = some d' ∧
      L.Holds S₀ (D.sectors d') (V.free l) :=
  freeChainLoop_holds D h hl hl.length_lt

end Refinement

end Mukrn.Fat32
