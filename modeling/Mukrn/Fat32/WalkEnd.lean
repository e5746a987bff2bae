import Mukrn.Fat32.FatArray

/-! Whether the walks over a directory end. The disk may hold anything: a walk goes on as long as it
meets links and sectors without what it looks for, and nothing keeps a chain from running in a
cycle. -/
namespace Mukrn.Fat32
open ByteMemory TableWalk

variable {δ ρ : Type}

/-- The walk goes on behind this cluster: none of its sectors makes it stop. -/
def ReliableDisk.PassesOver (D : ReliableDisk δ) (g : Geometry) (d : δ)
    (visit : Sector → Option ρ) (c : ℕ) : Prop :=
  isLink c = true ∧ ∀ s < g.sectorsPerCluster, visit (D.sectors d (g.sectorAt c s)) = none

section Walks

variable (D : ReliableDisk δ) {g : Geometry} {d : δ} {visit : Sector → Option ρ} {c n : ℕ}

theorem walkSectors_eq_none {ls : List ℕ} (hls : ∀ lba ∈ ls, lba < 2 ^ 32) :
    walkSectors D.toDevice visit d ls = none ↔ ∀ lba ∈ ls, visit (D.sectors d lba) = none := by
  induction ls with
  | nil => simp [walkSectors]
  | cons lba ls ih =>
    rw [walkSectors, D.read_eq _ _ (hls lba (by simp))]
    cases hv : visit (D.sectors d lba) with
    | some r => simp [hv]
    | none => simpa [hv] using ih fun lba' h => hls lba' (by simp [h])

theorem walkSectors_cluster : walkSectors D.toDevice visit d
      ((List.range g.sectorsPerCluster).map (g.sectorAt c)) = none ↔
    ∀ s < g.sectorsPerCluster, visit (D.sectors d (g.sectorAt c s)) = none := by
  rw [walkSectors_eq_none D]
  · simp
  · intro lba h
    obtain ⟨s, -, rfl⟩ := List.mem_map.mp h
    exact Nat.mod_lt _ (by decide)

/-- A walk has not ended after `n` clusters when it passes over all of them. -/
theorem walkLoop_eq_none : walkLoop D.toDevice g visit d n c = none ↔
    ∀ k < n, D.PassesOver g d visit ((nextCluster D.toDevice g d)^[k] c) := by
  induction n generalizing c with
  | zero => simp [walkLoop]
  | succ n ih =>
    have hsplit : (∀ k < n + 1, D.PassesOver g d visit ((nextCluster D.toDevice g d)^[k] c)) ↔
        D.PassesOver g d visit c ∧ ∀ k < n,
          D.PassesOver g d visit ((nextCluster D.toDevice g d)^[k]
            (nextCluster D.toDevice g d c)) :=
      Nat.forall_lt_succ_left
    rw [hsplit, ← ih, walkLoop, ReliableDisk.PassesOver, ← walkSectors_cluster D]
    by_cases hlink : isLink c = true
    · rw [if_pos hlink]
      cases walkSectors D.toDevice visit d
        ((List.range g.sectorsPerCluster).map (g.sectorAt c)) <;> simp [hlink]
    · rw [if_neg hlink]
      simp [hlink]

/-- A walk ends exactly when it does not come back to a cluster it has passed over. -/
theorem walkDir_eq_none : walkDir D.toDevice g visit d c = none ↔
    Loops (D.PassesOver g d visit) (nextCluster D.toDevice g d) c := by
  rw [walkDir, walkLoop_eq_none]
  constructor
  · intro hpass
    have hcells (a : ℕ) (ha : D.PassesOver g d visit a) : a ∈ Finset.Ico 2 eoc :=
      Finset.mem_Ico.mpr (isLink_iff.mp ha.1)
    refine (ends_or_loops hcells c).resolve_left ?_
    rintro ⟨k, hk, hend⟩
    rw [Nat.card_Ico] at hk
    exact hend (hpass k (hk.trans_lt (by decide)))
  · exact fun hloop k _ => hloop.isLive k

/-- A walk that has not ended after `maxSteps` clusters never ends. -/
theorem walkLoop_of_walkDir (h : walkDir D.toDevice g visit d c = none) (n : ℕ) :
    walkLoop D.toDevice g visit d n c = none :=
  (walkLoop_eq_none D).mpr fun k _ => ((walkDir_eq_none D).mp h).isLive k

/-- Deleting ends when the walk to the entry ends: its chain is freed on every table. -/
theorem deleteEntry_eq_none (hg : g.Words) (name : List UInt8) :
    deleteEntry D.toDevice g d c name = none ↔
      walkDir D.toDevice g (visitName name) d c = none := by
  unfold deleteEntry
  cases hw : walkDir D.toDevice g (visitName name) d c with
  | none => simp
  | some w =>
    simp only [Option.bind_eq_bind, Option.bind_some, reduceCtorEq, iff_false]
    split
    next lba sec off =>
      split
      · simp
      next d₁ _ =>
        obtain ⟨d', t', hfree, -⟩ := freeClusterChain_wipes D hg d₁ (entryCluster sec off)
        split <;> simp [hfree]
    · simp

/-- The three walks over a directory end on every disk and for every name, except where the chain of
the directory runs into a cycle and every sector up to there is full: without an end mark and
without the name, or without a free slot. -/
theorem dir_walks_end_iff (hg : g.Words) (d : δ) (c : ℕ) (name : List UInt8) :
    (findInDir D.toDevice g d c name ≠ none ∧ deleteEntry D.toDevice g d c name ≠ none ∧
      freeDirEntry D.toDevice g d c ≠ none) ↔
    ¬ Loops (D.PassesOver g d (visitName name)) (nextCluster D.toDevice g d) c ∧
      ¬ Loops (D.PassesOver g d visitFree) (nextCluster D.toDevice g d) c := by
  have hfind : findInDir D.toDevice g d c name = none ↔
      walkDir D.toDevice g (visitName name) d c = none := Option.map_eq_none_iff
  have hfree : freeDirEntry D.toDevice g d c = none ↔
      walkDir D.toDevice g visitFree d c = none := Option.map_eq_none_iff
  rw [ne_eq, ne_eq, ne_eq, hfind, deleteEntry_eq_none D hg, hfree, walkDir_eq_none, walkDir_eq_none]
  tauto

end Walks

/-- A directory of two clusters, the first one full of entries with another name. -/
theorem dir_walks_end_sample : ∃ S : ℕ → Sector,
    nextCluster arrayDisk.toDevice ⟨512, 1, 32, 1, 8, 2⟩ S 2 = 3 ∧
    findInDir arrayDisk.toDevice ⟨512, 1, 32, 1, 8, 2⟩ S 2 (to83 [66]) ≠ none ∧
    deleteEntry arrayDisk.toDevice ⟨512, 1, 32, 1, 8, 2⟩ S 2 (to83 [66]) ≠ none ∧
    freeDirEntry arrayDisk.toDevice ⟨512, 1, 32, 1, 8, 2⟩ S 2 ≠ none := by
  obtain ⟨S, hS⟩ : ∃ S : ℕ → Sector, S = fun lba =>
    if lba = 32 then store (fun _ => 0) 8 4 3 else if lba = 40 then fun _ => 65 else fun _ => 0 :=
    ⟨_, rfl⟩
  have hsized : Geometry.Sized ⟨512, 1, 32, 1, 8, 2⟩ :=
    ⟨by decide, by decide, by decide, by decide, by decide, by decide⟩
  have hnext : nextCluster arrayDisk.toDevice ⟨512, 1, 32, 1, 8, 2⟩ S 2 = 3 := by
    rw [hS]
    decide
  -- a walk that does not end passes over the second cluster, which is empty
  have hlast {ρ : Type} {visit : Sector → Option ρ} (hloop : Loops (arrayDisk.PassesOver
      ⟨512, 1, 32, 1, 8, 2⟩ S visit) (nextCluster arrayDisk.toDevice ⟨512, 1, 32, 1, 8, 2⟩ S) 2) :
      visit (fun _ => 0) = none := by
    have hpass := (hloop.isLive 1).2 0 (by decide)
    rw [Function.iterate_one, hnext] at hpass
    rw [hS] at hpass
    exact hpass
  refine ⟨S, hnext, (dir_walks_end_iff arrayDisk (hsized.words rfl) _ _ _).mpr
    ⟨fun hloop => absurd (hlast hloop) (by decide), fun hloop => absurd (hlast hloop) (by decide)⟩⟩

/-- A directory cluster that links to itself, full of entries with another name. -/
theorem dir_walks_go_on : ∃ S : ℕ → Sector,
    findInDir arrayDisk.toDevice ⟨512, 1, 32, 1, 8, 2⟩ S 2 (to83 [66]) = none ∧
    deleteEntry arrayDisk.toDevice ⟨512, 1, 32, 1, 8, 2⟩ S 2 (to83 [66]) = none ∧
    freeDirEntry arrayDisk.toDevice ⟨512, 1, 32, 1, 8, 2⟩ S 2 = none ∧
    ∀ n, walkLoop arrayDisk.toDevice ⟨512, 1, 32, 1, 8, 2⟩ (visitName (to83 [66])) S n 2 = none ∧
      walkLoop arrayDisk.toDevice ⟨512, 1, 32, 1, 8, 2⟩ visitFree S n 2 = none := by
  obtain ⟨S, hS⟩ : ∃ S : ℕ → Sector, S = fun lba =>
    if lba = 32 then store (fun _ => 0) 8 4 2 else fun _ => 65 := ⟨_, rfl⟩
  have hsized : Geometry.Sized ⟨512, 1, 32, 1, 8, 2⟩ :=
    ⟨by decide, by decide, by decide, by decide, by decide, by decide⟩
  have hnext : nextCluster arrayDisk.toDevice ⟨512, 1, 32, 1, 8, 2⟩ S 2 = 2 := by
    rw [hS]
    decide
  have hloop {ρ : Type} (visit : Sector → Option ρ) (hfull : visit (fun _ => 65) = none) :
      walkDir arrayDisk.toDevice ⟨512, 1, 32, 1, 8, 2⟩ visit S 2 = none := by
    refine (walkDir_eq_none arrayDisk).mpr ⟨0, 1, Nat.one_pos, hnext.symm, fun k hk => ?_⟩
    obtain rfl : k = 0 := Nat.lt_one_iff.mp hk
    refine ⟨rfl, fun s hs => ?_⟩
    obtain rfl : s = 0 := Nat.lt_one_iff.mp hs
    rw [hS]
    exact hfull
  have hname := hloop (visitName (to83 [66])) (by decide)
  have hfree := hloop visitFree (by decide)
  refine ⟨S, ?_, (deleteEntry_eq_none arrayDisk (hsized.words rfl) _).mpr hname, ?_, fun n => ?_⟩
  · rw [findInDir, hname, Option.map_none]
  · rw [freeDirEntry, hfree, Option.map_none]
  · exact ⟨walkLoop_of_walkDir arrayDisk hname n, walkLoop_of_walkDir arrayDisk hfree n⟩

end Mukrn.Fat32
