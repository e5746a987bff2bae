import Mukrn.Fat32.Slots

/-! Walks over a directory visit the slots of its chain in order. -/
namespace Mukrn.Fat32

/-- The place of an entry: its cluster, the sector in it and the index in the sector. -/
structure Slot where
  cluster : ℕ
  sector : ℕ
  index : ℕ
  deriving DecidableEq

def sectorSlots (c s : ℕ) : List Slot := (List.range 16).map (Slot.mk c s)

namespace Layout

variable (L : Layout)

def clusterSlots (c : ℕ) : List Slot := (List.range L.sectorsPerCluster).flatMap (sectorSlots c)

/-- The slots of a directory with this chain. -/
def slots (l : List ℕ) : List Slot := l.flatMap L.clusterSlots

variable {L} {l : List ℕ} {p : Slot}

theorem slots_cons (c : ℕ) (l : List ℕ) : L.slots (c :: l) = L.clusterSlots c ++ L.slots l :=
  List.flatMap_cons

theorem mem_slots : p ∈ L.slots l ↔
    p.cluster ∈ l ∧ p.sector < L.sectorsPerCluster ∧ p.index < 16 := by
  obtain ⟨c, s, k⟩ := p
  simp only [slots, clusterSlots, sectorSlots, List.mem_flatMap, List.mem_range, List.mem_map,
    Slot.mk.injEq]
  constructor
  · rintro ⟨c', hc, s', hs, k', hk, rfl, rfl, rfl⟩
    exact ⟨hc, hs, hk⟩
  · rintro ⟨hc, hs, hk⟩
    exact ⟨c, hc, s, hs, k, hk, rfl, rfl, rfl⟩

end Layout

namespace Volume

variable (V : Volume)

def entry (p : Slot) : Entry := readEntry (V.data p.cluster p.sector) (32 * p.index)

/-- The slots before the end mark. -/
def active (ps : List Slot) : List Slot := ps.takeWhile fun p => !(V.entry p).isEnd

/-- The slot that a name leads to. -/
def find (name : List UInt8) (ps : List Slot) : Option Slot :=
  (V.active ps).find? fun p => (V.entry p).isNamed name

/-- The first slot that an entry could be written to. -/
def freeSlot (ps : List Slot) : Option Slot := ps.find? fun p => (V.entry p).isFree

variable {V} {name : List UInt8} {ps : List Slot} {p : Slot}

theorem find_spec (h : V.find name ps = some p) :
    p ∈ V.active ps ∧ (V.entry p).isNamed name = true := by
  have hp := List.find?_some (p := fun p => (V.entry p).isNamed name) h
  exact ⟨List.mem_of_find?_eq_some h, hp⟩

theorem mem_of_active (h : p ∈ V.active ps) : p ∈ ps := (List.takeWhile_prefix _).subset h

theorem find_mem (h : V.find name ps = some p) : p ∈ ps := mem_of_active (find_spec h).1

theorem freeSlot_spec (h : V.freeSlot ps = some p) : p ∈ ps ∧ (V.entry p).isFree = true := by
  have hp := List.find?_some (p := fun p => (V.entry p).isFree) h
  exact ⟨List.mem_of_find?_eq_some h, hp⟩

end Volume

section Walks

variable {δ ρ : Type} (D : ReliableDisk δ) {L : Layout} {S₀ : ℕ → Sector} {V : Volume} {d : δ}
  {c : ℕ} {l : List ℕ} {name : List UInt8} {p : Slot}

/-- What a walk returns when it stops at a slot. -/
def Layout.stopAt (L : Layout) (V : Volume) (pick : Sector → ℕ → Option ρ) (p : Slot) :
    Option (Walk ρ) :=
  (pick (V.data p.cluster p.sector) p.index).map
    (.found (L.sectorAt p.cluster p.sector) (V.data p.cluster p.sector))

theorem walkSectors_eq (h : L.Holds S₀ (D.sectors d) V) (hc : L.IsCluster c)
    {visit : Sector → Option ρ} {pick : Sector → ℕ → Option ρ}
    (hv : ∀ sec, visit sec = (List.range 16).findSome? (pick sec)) {ss : List ℕ}
    (hs : ∀ s ∈ ss, s < L.sectorsPerCluster) :
    walkSectors D.toDevice visit d (ss.map (L.sectorAt c)) =
      (ss.flatMap (sectorSlots c)).findSome? (L.stopAt V pick) := by
  induction ss with
  | nil => rfl
  | cons s ss ih =>
    have hread := read_sectorAt D h hc (hs s (by simp))
    have hsec : (sectorSlots c s).findSome? (L.stopAt V pick) =
        (visit (V.data c s)).map (.found (L.sectorAt c s) (V.data c s)) := by
      rw [hv, List.map_findSome?, sectorSlots, List.findSome?_map]
      rfl
    rw [List.map_cons, walkSectors, hread, List.flatMap_cons, List.findSome?_append, hsec,
      ← ih fun s' hs' => hs s' (by simp [hs'])]
    cases hvis : visit (V.data c s) <;> simp [hvis]

theorem walkLoop_eq (h : L.Holds S₀ (D.sectors d) V) (hl : L.Chain V c l)
    {visit : Sector → Option ρ} {pick : Sector → ℕ → Option ρ}
    (hv : ∀ sec, visit sec = (List.range 16).findSome? (pick sec)) {n : ℕ} (hn : l.length < n) :
    walkLoop D.toDevice L.toGeometry visit d n c =
      some (((L.slots l).findSome? (L.stopAt V pick)).getD .missing) := by
  induction l generalizing c n with
  | nil =>
    cases n with
    | zero => cases hn
    | succ n => simp [walkLoop, hl.not_link, Layout.slots]
  | cons a l ih =>
    cases n with
    | zero => cases hn
    | succ n =>
      obtain ⟨rfl, hc, -, ht⟩ := Layout.Chain.cons_iff.mp hl
      rw [walkLoop, if_pos hc.isLink, nextCluster_eq D h hc, ih ht (Nat.lt_of_succ_lt_succ hn),
        walkSectors_eq D h hc hv fun s hs => List.mem_range.mp hs, ← Layout.clusterSlots,
        Layout.slots_cons, List.findSome?_append]
      cases (L.clusterSlots c).findSome? (L.stopAt V pick) <;> rfl

theorem walkDir_eq (h : L.Holds S₀ (D.sectors d) V) (hl : L.Chain V c l)
    {visit : Sector → Option ρ} {pick : Sector → ℕ → Option ρ}
    (hv : ∀ sec, visit sec = (List.range 16).findSome? (pick sec)) :
    walkDir D.toDevice L.toGeometry visit d c =
      some (((L.slots l).findSome? (L.stopAt V pick)).getD .missing) :=
  walkLoop_eq D h hl hv hl.length_lt

/-- The slot index instead of the offset. -/
def pickName (name : List UInt8) (sec : Sector) (k : ℕ) : Option Hit := visitEntry name sec (32 * k)

theorem visitName_eq (name : List UInt8) (sec : Sector) :
    visitName name sec = (List.range 16).findSome? (pickName name sec) := List.findSome?_map ..

def pickFree (sec : Sector) (k : ℕ) : Option ℕ :=
  if (readEntry sec (32 * k)).isFree then some (32 * k) else none

theorem visitFree_eq (sec : Sector) :
    visitFree sec = (List.range 16).findSome? (pickFree sec) := by
  rw [visitFree, entryOffsets, List.find?_map, List.find?_eq_findSome?_guard, List.map_findSome?]
  congr 1
  funext k
  by_cases h : sec (32 * k) = 0 ∨ sec (32 * k) = 0xE5 <;>
    simp [pickFree, Entry.isFree, readEntry_first, Option.guard, h]

theorem stopAt_pickName (hn : name.length = 11) (V : Volume) (p : Slot) :
    L.stopAt V (pickName name) p =
      if (V.entry p).isEnd then
        some (.found (L.sectorAt p.cluster p.sector) (V.data p.cluster p.sector) .endMark)
      else if (V.entry p).isNamed name then
        some (.found (L.sectorAt p.cluster p.sector) (V.data p.cluster p.sector)
          (.entry (32 * p.index)))
      else none := by
  rw [Layout.stopAt, pickName, visitEntry_eq hn, ← Volume.entry, apply_ite (Option.map _),
    apply_ite (Option.map _)]
  rfl

/-- The walk for a name stops at the slot it leads to. -/
theorem findSome_of_find (hn : name.length = 11) {ps : List Slot} (hp : V.find name ps = some p) :
    ps.findSome? (L.stopAt V (pickName name)) =
      some (.found (L.sectorAt p.cluster p.sector) (V.data p.cluster p.sector)
        (.entry (32 * p.index))) := by
  induction ps with
  | nil => cases hp
  | cons q ps ih =>
    rw [List.findSome?_cons, stopAt_pickName hn]
    simp only [Volume.find, Volume.active, List.takeWhile_cons] at hp
    cases hend : (V.entry q).isEnd with
    | true => simp [hend] at hp
    | false =>
      simp only [hend, Bool.not_false, if_true, List.find?_cons] at hp
      cases hq : (V.entry q).isNamed name with
      | true =>
        simp only [hq, Option.some.injEq] at hp
        simp [hp]
      | false =>
        simp only [hq] at hp
        simpa using ih hp

/-- Without such a slot it stops at no entry. -/
theorem findSome_of_not_find (hn : name.length = 11) {ps : List Slot} (hp : V.find name ps = none)
    (lba off : ℕ) (sec : Sector) :
    ps.findSome? (L.stopAt V (pickName name)) ≠ some (.found lba sec (.entry off)) := by
  induction ps with
  | nil => exact fun h => by cases h
  | cons q ps ih =>
    rw [List.findSome?_cons, stopAt_pickName hn]
    simp only [Volume.find, Volume.active, List.takeWhile_cons] at hp
    cases hend : (V.entry q).isEnd with
    | true => simp
    | false =>
      simp only [hend, Bool.not_false, if_true, List.find?_cons] at hp
      cases hq : (V.entry q).isNamed name with
      | true => simp [hq] at hp
      | false =>
        simp only [hq] at hp
        simpa using ih hp

theorem walkDir_found (h : L.Holds S₀ (D.sectors d) V) (hl : L.Chain V c l)
    (hn : name.length = 11) (hp : V.find name (L.slots l) = some p) :
    walkDir D.toDevice L.toGeometry (visitName name) d c =
      some (.found (L.sectorAt p.cluster p.sector) (V.data p.cluster p.sector)
        (.entry (32 * p.index))) := by
  rw [walkDir_eq D h hl (visitName_eq name), findSome_of_find hn hp, Option.getD_some]

theorem walkDir_missing (h : L.Holds S₀ (D.sectors d) V) (hl : L.Chain V c l)
    (hn : name.length = 11) (hp : V.find name (L.slots l) = none) :
    ∃ w, walkDir D.toDevice L.toGeometry (visitName name) d c = some w ∧
      ∀ lba off sec, w ≠ .found lba sec (.entry off) := by
  refine ⟨_, walkDir_eq D h hl (visitName_eq name), fun lba off sec heq => ?_⟩
  have hno := findSome_of_not_find (L := L) hn hp lba off sec
  cases hf : (L.slots l).findSome? (L.stopAt V (pickName name)) with
  | none =>
    rw [hf] at heq
    cases heq
  | some w =>
    rw [hf, Option.getD_some] at heq
    exact hno (by rw [hf, heq])

/-- First cluster and size of the entry a name leads to. -/
theorem findInDir_eq (h : L.Holds S₀ (D.sectors d) V) (hl : L.Chain V c l)
    (hn : name.length = 11) :
    findInDir D.toDevice L.toGeometry d c name =
      some ((V.find name (L.slots l)).map fun p => ((V.entry p).cluster, (V.entry p).size)) := by
  unfold findInDir
  cases hp : V.find name (L.slots l) with
  | some p =>
    rw [walkDir_found D h hl hn hp]
    rfl
  | none =>
    obtain ⟨w, hw, hno⟩ := walkDir_missing D h hl hn hp
    rw [hw, Option.map_some, Option.map_none]
    congr 1
    split
    next lba sec off => exact absurd rfl (hno lba off sec)
    · rfl

theorem setSector_self (V : Volume) (c s : ℕ) : V.setSector c s (V.data c s) = V := by
  ext1
  · rfl
  · funext c' s'
    rw [Volume.setSector_data]
    split
    next h => rw [h.1, h.2]
    · rfl

theorem stopAt_pickFree (V : Volume) (p : Slot) :
    L.stopAt V pickFree p =
      if (V.entry p).isFree then
        some (.found (L.sectorAt p.cluster p.sector) (V.data p.cluster p.sector) (32 * p.index))
      else none := by
  rw [Layout.stopAt, pickFree, ← Volume.entry, apply_ite (Option.map _)]
  rfl

theorem findSome_pickFree (ps : List Slot) :
    ps.findSome? (L.stopAt V pickFree) = (V.freeSlot ps).map fun p =>
      .found (L.sectorAt p.cluster p.sector) (V.data p.cluster p.sector) (32 * p.index) := by
  rw [Volume.freeSlot, List.find?_eq_findSome?_guard, List.map_findSome?]
  congr 1
  funext p
  rw [stopAt_pickFree]
  by_cases h : (V.entry p).isFree = true <;> simp [Option.guard, h]

/-- The offset of the free slot is found and nothing changes. -/
theorem freeDirEntry_holds (h : L.Holds S₀ (D.sectors d) V) (hl : L.Chain V c l) :
    ∃ d', freeDirEntry D.toDevice L.toGeometry d c =
        some ((V.freeSlot (L.slots l)).map fun p => 32 * p.index, d') ∧
      L.Holds S₀ (D.sectors d') V := by
  unfold freeDirEntry
  rw [walkDir_eq D h hl visitFree_eq, findSome_pickFree]
  cases hp : V.freeSlot (L.slots l) with
  | none => exact ⟨d, rfl, h⟩
  | some p =>
    obtain ⟨hc, hs, -⟩ := Layout.mem_slots.mp (Volume.freeSlot_spec hp).1
    obtain ⟨d', hwrite, hd'⟩ := write_sectorAt D h (hl.used _ hc).1 hs (V.data p.cluster p.sector)
    rw [setSector_self] at hd'
    refine ⟨d', ?_, hd'⟩
    simp only [Option.map_some, Option.getD_some, hwrite]

end Walks

end Mukrn.Fat32
