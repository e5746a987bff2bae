import Mukrn.Fat32.Walk

/-! What the parts of a request do to the volume. -/
namespace Mukrn.Fat32
open ByteMemory

namespace Volume

variable (V : Volume) {p q : Slot}

/-- The sector of a slot is replaced. -/
def setSlot (p : Slot) (sec : Sector) : Volume := V.setSector p.cluster p.sector sec

def sectorOf (p : Slot) : Sector := V.data p.cluster p.sector

variable {V}

@[simp] theorem setSlot_fat (p : Slot) (sec : Sector) : (V.setSlot p sec).fat = V.fat := rfl

/-- A sector that differs in one entry only. -/
theorem entry_setSlot {sec : Sector}
    (h : ∀ j ≠ p.index, readEntry sec (32 * j) = readEntry (V.sectorOf p) (32 * j)) (q : Slot) :
    (V.setSlot p sec).entry q = if q = p then readEntry sec (32 * p.index) else V.entry q := by
  obtain ⟨c, s, k⟩ := p
  obtain ⟨c', s', k'⟩ := q
  simp only [entry, setSlot, setSector_data, Slot.mk.injEq]
  by_cases hsec : c' = c ∧ s' = s
  · obtain ⟨rfl, rfl⟩ := hsec
    by_cases hk : k' = k
    · simp [hk]
    · simpa [hk, sectorOf] using h k' hk
  · rw [if_neg hsec, if_neg fun h => hsec ⟨h.1, h.2.1⟩]

end Volume

section Effects

variable {δ : Type} (D : ReliableDisk δ) {L : Layout} {S₀ : ℕ → Sector} {V : Volume} {d : δ}
  {c start old len : ℕ} {l lold lnew : List ℕ} {name : List UInt8} {p : Slot}

/-- The data of a request fits the first sector of a cluster. -/
theorem writeFileData_holds (h : L.Holds S₀ (D.sectors d) V) (hc : L.IsCluster c) (hlen : 0 < len)
    (hle : len ≤ 512) (data : ℕ → UInt8) :
    ∃ d', writeFileData D.toDevice L.toGeometry d c data len = some (true, d') ∧
      L.Holds S₀ (D.sectors d') (V.setSector c 0 (dataSector data 0 len)) := by
  obtain ⟨d', hwrite, hd'⟩ := write_sectorAt D h hc L.sectors_pos (dataSector data 0 len)
  refine ⟨d', ?_, hd'⟩
  have hsec : writeSectors D.toDevice L.toGeometry data 0 len
      ((List.range L.sectorsPerCluster).map (L.sectorAt c)) d 0 = (len, true, d') := by
    obtain ⟨m, hm⟩ : ∃ m, L.sectorsPerCluster = m + 1 :=
      Nat.exists_eq_succ_of_ne_zero L.sectors_pos.ne'
    simp only [hm, List.range_succ_eq_map, List.map_cons, writeSectors, if_pos hlen, Nat.sub_zero,
      L.bytes_eq, Nat.min_eq_left hle, Nat.zero_add, hwrite]
    cases m with
    | zero => rfl
    | succ m => simp [List.range_succ_eq_map, writeSectors]
  have hmin : min (len - 0) (L.bytesPerSector * L.sectorsPerCluster) = len := by
    have hpos := L.sectors_pos
    rw [L.bytes_eq]
    omega
  have hext : extendChain D.toDevice L.toGeometry d c 0 = (some c, d) := if_pos hc.isLink
  have hsteps : maxSteps = 268435454 + 1 + 1 := rfl
  rw [writeFileData, hsteps, writeDataLoop, if_pos hlen, hext]
  simp only [hmin, hsec]
  rw [writeDataLoop, if_neg (by omega)]

/-- Without data nothing is taken. -/
theorem storeData_empty (dev : Device δ) (g : Geometry) (d : δ) (data : ℕ → UInt8) :
    storeData dev g d data 0 = some (some 0, d) := rfl

theorem storeData_full (h : L.Holds S₀ (D.sectors d) V) (hb : L.Bounded S₀) (hlen : 0 < len)
    (hf : V.firstFree L = none) (data : ℕ → UInt8) :
    storeData D.toDevice L.toGeometry d data len = some (none, d) := by
  simp only [storeData, if_neg hlen.ne', allocCluster_none D h hb hf]

/-- The first free cluster with the data in its first sector. -/
def Volume.stored (V : Volume) (c : ℕ) (data : ℕ → UInt8) (len : ℕ) : Volume :=
  (V.setFat c eoc).setSector c 0 (dataSector data 0 len)

theorem storeData_holds (h : L.Holds S₀ (D.sectors d) V) (hb : L.Bounded S₀) (hlen : 0 < len)
    (hle : len ≤ 512) (hf : V.firstFree L = some c) (data : ℕ → UInt8) :
    ∃ d', storeData D.toDevice L.toGeometry d data len = some (some c, d') ∧
      L.Holds S₀ (D.sectors d') (V.stored c data len) := by
  obtain ⟨d₁, halloc, hd₁⟩ := allocCluster_some D h hb hf
  have hc := (Volume.firstFree_spec hf).1
  obtain ⟨d', hwrite, hd'⟩ := writeFileData_holds D hd₁ hc hlen hle data
  refine ⟨d', ?_, hd'⟩
  obtain ⟨k, rfl⟩ : ∃ k, c = k + 1 := Nat.exists_eq_succ_of_ne_zero (by have := hc.1; omega)
  simp only [storeData, if_neg hlen.ne', halloc, hwrite]
  rfl

/-- The slot an entry is written to when `p` is the free one: the same index, but in the first
sector of the directory. -/
def Slot.target (p : Slot) (dir : ℕ) : Slot := ⟨dir, 0, p.index⟩

def Volume.added (V : Volume) (t : Slot) (e : Mem) : Volume :=
  V.setSlot t (fill (V.sectorOf t) (32 * t.index) 32 e)

theorem addEntry_full (h : L.Holds S₀ (D.sectors d) V) (hl : L.Chain V c l)
    (hnew : L.Chain V start lnew) (hp : V.freeSlot (L.slots l) = none) (e : Mem) :
    ∃ d', addEntry D.toDevice L.toGeometry d c e start = some (false, d') ∧
      L.Holds S₀ (D.sectors d') (V.free lnew) := by
  obtain ⟨d₁, hslot, hd₁⟩ := freeDirEntry_holds D h hl
  obtain ⟨d', hfree, hd'⟩ := freeClusterChain_holds D hd₁ hnew
  refine ⟨d', ?_, hd'⟩
  rw [hp] at hslot
  simp only [addEntry, hslot, Option.map_none, Option.bind_eq_bind, Option.bind_some, hfree,
    Option.map_some]

theorem Layout.Chain.of_slot (hl : L.Chain V c l) (hp : p ∈ L.slots l) : L.IsCluster c := by
  have hmem := (Layout.mem_slots.mp hp).1
  cases l with
  | nil => cases hmem
  | cons a l =>
    obtain ⟨rfl, hc, -⟩ := Layout.Chain.cons_iff.mp hl
    exact hc

theorem addEntry_holds (h : L.Holds S₀ (D.sectors d) V) (hl : L.Chain V c l)
    (hp : V.freeSlot (L.slots l) = some p) (e : Mem) (start : ℕ) :
    ∃ d', addEntry D.toDevice L.toGeometry d c e start = some (true, d') ∧
      L.Holds S₀ (D.sectors d') (V.added (p.target c) e) := by
  obtain ⟨d₁, hslot, hd₁⟩ := freeDirEntry_holds D h hl
  have hmem := (Volume.freeSlot_spec hp).1
  have hc := hl.of_slot hmem
  have hk := (Layout.mem_slots.mp hmem).2.2
  have hdiv : 32 * p.index / 512 = 0 := by omega
  have hmod : 32 * p.index % 512 = 32 * p.index := by omega
  have hread := read_sectorAt D hd₁ hc L.sectors_pos
  obtain ⟨d', hwrite, hd'⟩ := write_sectorAt D hd₁ hc L.sectors_pos
    (fill (V.data c 0) (32 * p.index) 32 e)
  refine ⟨d', ?_, hd'⟩
  rw [hp] at hslot
  rw [Geometry.sectorAt] at hread hwrite
  simp only [addEntry, hslot, Option.map_some, Option.bind_eq_bind, Option.bind_some, hdiv, hmod,
    hread, hwrite]

theorem deleteEntry_missing (h : L.Holds S₀ (D.sectors d) V) (hl : L.Chain V c l)
    (hn : name.length = 11) (hp : V.find name (L.slots l) = none) :
    deleteEntry D.toDevice L.toGeometry d c name = some (false, d) := by
  obtain ⟨w, hw, hno⟩ := walkDir_missing D h hl hn hp
  rw [deleteEntry, hw, Option.bind_eq_bind, Option.bind_some]
  split
  next lba sec off => exact absurd rfl (hno lba off sec)
  · rfl

def Volume.deleted (V : Volume) (p : Slot) : Volume :=
  V.setSlot p (Function.update (V.sectorOf p) (32 * p.index) 0xE5)

/-- The clusters that deleting an entry gives back: none of a directory. -/
def Entry.released (e : Entry) (le : List ℕ) : List ℕ := if e.isDir then [] else le

theorem deleteEntry_holds (h : L.Holds S₀ (D.sectors d) V) (hl : L.Chain V c l)
    (hn : name.length = 11) (hp : V.find name (L.slots l) = some p) {le : List ℕ}
    (hle : L.Chain V (V.entry p).cluster le) :
    ∃ d', deleteEntry D.toDevice L.toGeometry d c name = some (true, d') ∧
      L.Holds S₀ (D.sectors d') ((V.deleted p).free ((V.entry p).released le)) := by
  obtain ⟨hc, hs, -⟩ := Layout.mem_slots.mp (Volume.find_mem hp)
  obtain ⟨d₁, hwrite, hd₁⟩ := write_sectorAt D h (hl.used _ hc).1 hs
    (Function.update (V.sectorOf p) (32 * p.index) 0xE5)
  have hle' : L.Chain (V.deleted p) (V.entry p).cluster le := hle.congr fun _ _ => rfl
  obtain ⟨d₂, hfree, hd₂⟩ := freeClusterChain_holds D hd₁ hle'
  have hwalk := walkDir_found D h hl hn hp
  unfold Volume.sectorOf at hwrite
  rw [deleteEntry, hwalk, Option.bind_eq_bind, Option.bind_some]
  simp only [hwrite]
  by_cases hdir : (V.entry p).isDir = true
  · have hattr : ¬ V.data p.cluster p.sector (32 * p.index + 0xB) &&& 0x10 = 0 := by
      simpa [Entry.isDir, Volume.entry, readEntry] using hdir
    refine ⟨d₁, if_neg hattr, ?_⟩
    rw [Entry.released, if_pos hdir, Volume.free_nil]
    exact hd₁
  · have hattr : V.data p.cluster p.sector (32 * p.index + 0xB) &&& 0x10 = 0 := by
      simpa [Entry.isDir, Volume.entry, readEntry] using hdir
    refine ⟨d₂, ?_, ?_⟩
    · rw [if_pos hattr]
      exact congrArg (Option.map _) hfree
    · rw [Entry.released, if_neg hdir]
      exact hd₂

theorem makeDir_none (h : L.Holds S₀ (D.sectors d) V) (hb : L.Bounded S₀)
    (hf : V.firstFree L = none) :
    makeDir D.toDevice L.toGeometry d c name = some (false, d) := by
  simp only [makeDir, allocCluster_none D h hb hf]

/-- The first free cluster as a directory without entries of its own. -/
def Volume.withDots (V : Volume) (new parent : ℕ) : Volume :=
  (V.setFat new eoc).setSector new 0 (dotSector new parent)

theorem makeDir_some (h : L.Holds S₀ (D.sectors d) V) (hb : L.Bounded S₀)
    (hf : V.firstFree L = some start) (c : ℕ) (name : List UInt8) :
    ∃ d', makeDir D.toDevice L.toGeometry d c name =
        addEntry D.toDevice L.toGeometry d' c (dirEntry name start) start ∧
      L.Holds S₀ (D.sectors d') (V.withDots start c) := by
  obtain ⟨d₁, halloc, hd₁⟩ := allocCluster_some D h hb hf
  have hc := (Volume.firstFree_spec hf).1
  obtain ⟨d', hwrite, hd'⟩ := write_sectorAt D hd₁ hc L.sectors_pos (dotSector start c)
  rw [Layout.sectorAt_eq hc L.sectors_pos, ← Layout.clusterToSector_eq hc] at hwrite
  refine ⟨d', ?_, hd'⟩
  obtain ⟨k, rfl⟩ : ∃ k, start = k + 1 := Nat.exists_eq_succ_of_ne_zero (by have := hc.1; omega)
  simp only [makeDir, halloc, hwrite]

end Effects

section Overwrite

variable {δ ρ : Type}

theorem walkSectors_found {dev : Device δ} {visit : Sector → Option ρ} {d : δ} {ls : List ℕ}
    {lba : ℕ} {sec : Sector} {r : ρ} (h : walkSectors dev visit d ls = some (.found lba sec r)) :
    visit sec = some r := by
  induction ls with
  | nil => cases h
  | cons a ls ih =>
    rw [walkSectors] at h
    split at h
    · cases h
    next sec' hread =>
      split at h
      next r' hv =>
        cases h
        exact hv
      · exact ih h

/-- A walk stops at a sector that its visitor accepts. -/
theorem walkLoop_found {dev : Device δ} {g : Geometry} {visit : Sector → Option ρ} {d : δ}
    {n c lba : ℕ} {sec : Sector} {r : ρ}
    (h : walkLoop dev g visit d n c = some (.found lba sec r)) : visit sec = some r := by
  induction n generalizing c with
  | zero => cases h
  | succ n ih =>
    rw [walkLoop] at h
    split at h
    · split at h
      next w hw =>
        cases h
        exact walkSectors_found hw
      · exact ih h
    · cases h

variable {dev : Device δ} {g : Geometry} {name : List UInt8} {old start len lba : ℕ} {sec : Sector}
  {found : Found} {d : δ}

theorem overwriteEntries_skip {pre : List ℕ} (rest : List ℕ)
    (h : ∀ off ∈ pre, visitEntry name sec off = none) :
    overwriteEntries dev g name old start len lba (pre ++ rest) sec found d =
      overwriteEntries dev g name old start len lba rest sec found d := by
  induction pre with
  | nil => rfl
  | cons off pre ih =>
    rw [List.cons_append, overwriteEntries, h off (by simp)]
    exact ih fun o ho => h o (by simp [ho])

/-- Behind the match the loop only looks for an end mark. -/
theorem overwriteEntries_tail {rest : List ℕ}
    (h : ∀ off ∈ rest, ∀ o, visitEntry name sec off ≠ some (.entry o)) :
    overwriteEntries dev g name old start len lba rest sec found d =
      some (some (if rest.any fun off => visitEntry name sec off == some .endMark then .ended
        else found), d) := by
  induction rest with
  | nil => rfl
  | cons off rest ih =>
    rw [overwriteEntries]
    cases hv : visitEntry name sec off with
    | none =>
      rw [ih fun o ho => h o (by simp [ho])]
      simp [hv]
    | some hit =>
      cases hit with
      | endMark => simp [hv]
      | entry o => exact absurd hv (h off (by simp) o)

theorem visitEntry_entry {off o : ℕ} (h : visitEntry name sec off = some (.entry o)) : o = off := by
  unfold visitEntry at h
  split at h
  · cases h
  split at h
  · cases h
  split at h
  · cases h
    rfl
  · cases h

/-- The offsets around a match. -/
theorem visitName_split {k : ℕ} (h : visitName name sec = some (.entry (32 * k))) :
    ∃ pre post, entryOffsets = pre ++ 32 * k :: post ∧
      (∀ off ∈ pre, visitEntry name sec off = none) ∧
      (∀ off, off ∈ post ↔ ∃ j, k < j ∧ j < 16 ∧ off = 32 * j) ∧
      visitEntry name sec (32 * k) = some (.entry (32 * k)) := by
  obtain ⟨pre, off, post, hsplit, hoff, hpre⟩ := List.findSome?_eq_some_iff.mp h
  obtain rfl := visitEntry_entry hoff
  refine ⟨pre, post, hsplit, hpre, fun off => ?_, hoff⟩
  have hsorted : entryOffsets.Pairwise (· < ·) := by decide
  have hmem (o : ℕ) : o ∈ entryOffsets ↔ ∃ j < 16, o = 32 * j := by
    simp [entryOffsets, eq_comm]
  rw [hsplit] at hsorted hmem
  have hp := List.pairwise_append.mp hsorted
  have hgt := (List.pairwise_cons.mp hp.2.1).1
  constructor
  · intro ho
    obtain ⟨j, hj, rfl⟩ := (hmem off).mp (by simp [ho])
    have hlt := hgt _ ho
    exact ⟨j, by omega, hj, rfl⟩
  · rintro ⟨j, hkj, hj, rfl⟩
    have hin := (hmem (32 * j)).mpr ⟨j, hj, rfl⟩
    rcases List.mem_append.mp hin with hpre' | hpost
    · have hlt := hp.2.2 _ hpre' (32 * k) (by simp)
      omega
    · rcases List.mem_cons.mp hpost with heq | hpost
      · omega
      · exact hpost

end Overwrite

/-- An end mark follows the slot within its sector. -/
def Volume.endsAfter (V : Volume) (p : Slot) : Bool :=
  (List.range 16).any fun j => p.index < j && (V.entry ⟨p.cluster, p.sector, j⟩).isEnd

/-- The entry of a slot leads to other data, and the chain it had is given back. -/
def Volume.overwritten (V : Volume) (p : Slot) (lold : List ℕ) (start len : ℕ) : Volume :=
  (V.free lold).setSlot p (patchEntry (V.sectorOf p) (32 * p.index) start len)

section Overwrite

variable {δ : Type} (D : ReliableDisk δ) {L : Layout} {S₀ : ℕ → Sector} {V : Volume} {d : δ}
  {c start old : ℕ} {l lold lnew : List ℕ} {name : List UInt8} {p : Slot}

/-- When an end mark follows the entry in its sector, the new chain is given back as well and the
request is refused. -/
theorem overwriteEntry_holds (h : L.Holds S₀ (D.sectors d) V) (hl : L.Chain V c l)
    (hn : name.length = 11) (hp : V.find name (L.slots l) = some p)
    (hone : ∀ j, p.index < j → j < 16 → (V.entry ⟨p.cluster, p.sector, j⟩).isNamed name = false)
    (hold : L.Chain V old lold) (hnew : L.Chain V start lnew) (hdisj : ∀ a ∈ lnew, a ∉ lold)
    (len : ℕ) :
    ∃ d', overwriteEntry D.toDevice L.toGeometry d c name old start len =
        some (!V.endsAfter p, d') ∧
      L.Holds S₀ (D.sectors d') (if V.endsAfter p then (V.overwritten p lold start len).free lnew
        else V.overwritten p lold start len) := by
  obtain ⟨hc, hs, hk⟩ := Layout.mem_slots.mp (Volume.find_mem hp)
  have hwalk := walkDir_found D h hl hn hp
  obtain ⟨pre, post, hsplit, hpre, hpost, hmatch⟩ := visitName_split (walkLoop_found hwalk)
  obtain ⟨d₁, hfree, hd₁⟩ := freeClusterChain_holds D h hold
  obtain ⟨sec', hsec'⟩ : ∃ sec', sec' = patchEntry (V.data p.cluster p.sector) (32 * p.index) start
    len := ⟨_, rfl⟩
  obtain ⟨d₂, hwrite, hd₂⟩ := write_sectorAt D hd₁ (hl.used _ hc).1 hs sec'
  -- the later entries are as they were
  have hvisit (j : ℕ) (hj : p.index < j) : visitEntry name sec' (32 * j) =
      if (V.entry ⟨p.cluster, p.sector, j⟩).isEnd then some .endMark
      else if (V.entry ⟨p.cluster, p.sector, j⟩).isNamed name then some (.entry (32 * j))
      else none := by
    rw [visitEntry_eq hn, hsec', readEntry_patch_of_ne hj.ne']
    rfl
  have hany : (post.any fun off => visitEntry name sec' off == some .endMark) = V.endsAfter p := by
    rw [Bool.eq_iff_iff, List.any_eq_true, Volume.endsAfter, List.any_eq_true]
    constructor
    · rintro ⟨off, hoff, hend⟩
      obtain ⟨j, hkj, hj, rfl⟩ := (hpost off).mp hoff
      rw [hvisit j hkj, hone j hkj hj] at hend
      refine ⟨j, List.mem_range.mpr hj, ?_⟩
      by_cases he : (V.entry ⟨p.cluster, p.sector, j⟩).isEnd = true
      · simp [hkj, he]
      · simp [he] at hend
    · rintro ⟨j, hj, hend⟩
      simp only [Bool.and_eq_true, decide_eq_true_eq] at hend
      refine ⟨32 * j, (hpost _).mpr ⟨j, hend.1, List.mem_range.mp hj, rfl⟩, ?_⟩
      rw [hvisit j hend.1, if_pos hend.2]
      rfl
  have hloop : overwriteEntries D.toDevice L.toGeometry name old start len
      (L.sectorAt p.cluster p.sector) entryOffsets (V.data p.cluster p.sector) .no d =
        some (some (if V.endsAfter p then .ended else .yes), d₂) := by
    rw [hsplit, overwriteEntries_skip _ hpre, overwriteEntries, hmatch]
    simp only [hfree, Option.bind_eq_bind, Option.bind_some, ← hsec', hwrite]
    rw [overwriteEntries_tail, hany]
    intro off hoff o
    obtain ⟨j, hkj, hj, rfl⟩ := (hpost off).mp hoff
    rw [hvisit j hkj, hone j hkj hj, if_neg Bool.false_ne_true]
    split_ifs <;> simp
  have hd₂' : L.Holds S₀ (D.sectors d₂) (V.overwritten p lold start len) := by
    rw [hsec'] at hd₂
    exact hd₂
  simp only [overwriteEntry, hwalk, Option.bind_eq_bind, Option.bind_some, hloop]
  by_cases hend : V.endsAfter p = true
  · have hnew' : L.Chain (V.overwritten p lold start len) start lnew := by
      apply hnew.congr
      intro a ha
      exact if_neg (hdisj a ha)
    obtain ⟨d₃, hfree₃, hd₃⟩ := freeClusterChain_holds D hd₂' hnew'
    refine ⟨d₃, ?_, ?_⟩
    · simp [hend, hfree₃]
    · rw [if_pos hend]
      exact hd₃
  · refine ⟨d₂, ?_, ?_⟩
    · simp [hend]
    · rw [if_neg hend]
      exact hd₂'

end Overwrite

end Mukrn.Fat32
