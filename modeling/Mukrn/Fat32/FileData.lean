import Mukrn.Fat32.Messages
import Mukrn.Fat32.OneFile

/-! Writing the data of a file, of any length. Each time a cluster is full the chain grows by a free
one. The chain holds the clusters taken so far at every moment, so that the server gets all of them
back when it runs out of space. -/
namespace Mukrn.Fat32

/-- Byte `i` of a file that is filled up with zeros. -/
def fileByte (data : ℕ → UInt8) (size i : ℕ) : UInt8 := if i < size then data i else 0

/-- The `m` sectors of a cluster from `s` on with the data of a file whose offset `off` is at the
start of the cluster, as far as there is data. -/
def Volume.putSectors (V : Volume) (c : ℕ) (data : ℕ → UInt8) (size off s m : ℕ) : Volume :=
  { V with data := Function.update V.data c fun t =>
      if s ≤ t ∧ t < s + m ∧ off + 512 * t < size then
        dataSector data (off + 512 * t) (min (size - (off + 512 * t)) 512)
      else V.data c t }

namespace Layout

def clusterBytes (L : Layout) : ℕ := 512 * L.sectorsPerCluster

/-- The bytes of a chain in their order. -/
def bytesOf (L : Layout) (V : Volume) (l : List ℕ) : List UInt8 :=
  (L.sectorsOf V l).flatMap fun sec => (List.range 512).map sec

/-- Cluster `start` was free on the disk `S₀` and is marked as the end of a chain since. -/
structure Allocated (L : Layout) (S₀ S : ℕ → Sector) (start : ℕ) : Prop where
  isCluster : L.IsCluster start
  free : (L.view S₀).fat start = 0
  marked : ∃ e, eoc ≤ e ∧ L.Holds S₀ S ((L.view S₀).setFat start e)

/-- The chain from `start` has taken free clusters of `V₀`, and no other link has changed. -/
structure Grown (L : Layout) (V₀ V : Volume) (start : ℕ) (l : List ℕ) : Prop where
  chain : L.Chain V start l
  fresh : ∀ c ∈ l, V₀.fat c = 0
  fat : ∀ c ∉ l, V.fat c = V₀.fat c

/-- The clusters `w` of the chain are full, and the next data is for the last cluster `cur`. -/
structure Filling (L : Layout) (V₀ V : Volume) (start : ℕ) (data : ℕ → UInt8) (size : ℕ)
    (w : List ℕ) (cur : ℕ) : Prop where
  grown : L.Grown V₀ V start (w ++ [cur])
  last : eoc ≤ V.fat cur
  others : ∀ c ∉ w, V.data c = V₀.data c
  bytes : L.bytesOf V w = (List.range (L.clusterBytes * w.length)).map (fileByte data size)

/-- The chain holds the whole file. -/
structure Filled (L : Layout) (V₀ V : Volume) (start : ℕ) (data : ℕ → UInt8) (size : ℕ)
    (l : List ℕ) : Prop where
  grown : L.Grown V₀ V start l
  others : ∀ c ∉ l, V.data c = V₀.data c
  length : l.length = (size + L.clusterBytes - 1) / L.clusterBytes
  bytes : (L.bytesOf V l).take (512 * ((size + 511) / 512)) =
    (List.range (512 * ((size + 511) / 512))).map (fileByte data size)

/-- The chain is too short for the file, and no cluster is left. -/
structure Exhausted (L : Layout) (V₀ V : Volume) (start size : ℕ) (l : List ℕ) : Prop where
  grown : L.Grown V₀ V start l
  short : L.clusterBytes * l.length < size
  full : V.firstFree L = none

variable {L : Layout} {V V' V₀ : Volume} {start c new cur size off : ℕ} {l l' w : List ℕ}
  {data : ℕ → UInt8}

theorem clusterBytes_pos : 0 < L.clusterBytes :=
  Nat.mul_pos (by decide) L.sectors_pos

theorem bytesOf_append (V : Volume) (l l' : List ℕ) :
    L.bytesOf V (l ++ l') = L.bytesOf V l ++ L.bytesOf V l' := by
  rw [bytesOf, sectorsOf, List.flatMap_append, List.flatMap_append]
  rfl

theorem bytesOf_congr (h : ∀ c ∈ l, V'.data c = V.data c) : L.bytesOf V' l = L.bytesOf V l := by
  have hsec : L.sectorsOf V' l = L.sectorsOf V l := by
    apply List.flatMap_congr
    intro c hc
    rw [h c hc]
  rw [bytesOf, bytesOf, hsec]

theorem length_bytesOf (V : Volume) (l : List ℕ) :
    (L.bytesOf V l).length = L.clusterBytes * l.length := by
  have hsum (ss : List Sector) :
      (ss.flatMap fun sec => (List.range 512).map sec).length = 512 * ss.length := by
    induction ss with
    | nil => rfl
    | cons sec ss ih =>
      rw [List.flatMap_cons, List.length_append, ih, List.length_map, List.length_range,
        List.length_cons, Nat.mul_succ, Nat.add_comm]
  rw [bytesOf, hsum, length_sectorsOf, clusterBytes, Nat.mul_assoc]

/-- A free cluster is put behind the last one of a chain. -/
theorem Chain.snoc (h : L.Chain V start (w ++ [cur])) (hnew : L.IsCluster new)
    (hfree : V.fat new = 0) :
    L.Chain ((V.setFat new eoc).setFat cur new) start (w ++ [cur] ++ [new]) := by
  have hne (a : ℕ) (ha : a ∈ w ++ [cur]) : a ≠ new := by
    rintro rfl
    exact (h.used a ha).2 hfree
  have hcur := hne cur (by simp)
  have hw (a : ℕ) (ha : a ∈ w) : ((V.setFat new eoc).setFat cur new).fat a = V.fat a := by
    have hac : a ≠ cur := by
      rintro rfl
      exact List.disjoint_of_nodup_append h.nodup ha (by simp)
    rw [Volume.setFat_fat, if_neg hac, Volume.setFat_fat, if_neg (hne a (by simp [ha]))]
  have hlast : ((V.setFat new eoc).setFat cur new).fat cur = new := by
    rw [Volume.setFat_fat, if_pos rfl]
  have hend : ((V.setFat new eoc).setFat cur new).fat new = eoc := by
    rw [Volume.setFat_fat, if_neg hcur.symm, Volume.setFat_fat, if_pos rfl]
  have h2 := hnew.1
  constructor
  · apply h.linked.snoc (by omega : new ≠ 0)
    · exact fun a ha => congrArg link (hw a ha)
    · simp only [hlast]
      exact link_of_isLink hnew.isLink
    · simp only [hend]
      rfl
  · intro a ha
    rcases List.mem_append.mp ha with ha | ha
    · refine ⟨(h.used a ha).1, ?_⟩
      rcases List.mem_append.mp ha with ha' | ha'
      · rw [hw a ha']
        exact (h.used a ha).2
      · rw [List.mem_singleton.mp ha', hlast]
        omega
    · rw [List.mem_singleton.mp ha, hend]
      exact ⟨hnew, by decide⟩

namespace Grown

/-- The first cluster of the chain. -/
theorem single (hc : L.IsCluster start) (hfree : V₀.fat start = 0) {e : ℕ} (he : eoc ≤ e) :
    L.Grown V₀ (V₀.setFat start e) start [start] := by
  constructor
  · apply Chain.single hc
    rw [Volume.setFat_fat, if_pos rfl]
    exact he
  · intro c hc
    rw [List.mem_singleton.mp hc, hfree]
  · intro c hc
    rw [Volume.setFat_fat, if_neg (by simpa using hc)]

theorem congr (h : L.Grown V₀ V start l) (hfat : V'.fat = V.fat) : L.Grown V₀ V' start l := by
  refine ⟨h.chain.congr fun c _ => congrFun hfat c, h.fresh, ?_⟩
  rw [hfat]
  exact h.fat

theorem snoc (h : L.Grown V₀ V start (w ++ [cur])) (hnew : L.IsCluster new)
    (hfree : V.fat new = 0) :
    L.Grown V₀ ((V.setFat new eoc).setFat cur new) start (w ++ [cur] ++ [new]) := by
  have hnot : new ∉ w ++ [cur] := fun hmem => (h.chain.used new hmem).2 hfree
  constructor
  · exact h.chain.snoc hnew hfree
  · intro c hc
    rcases List.mem_append.mp hc with hc | hc
    · exact h.fresh c hc
    · rw [List.mem_singleton.mp hc, ← h.fat new hnot, hfree]
  · intro c hc
    simp only [List.mem_append, List.mem_singleton, not_or] at hc
    rw [Volume.setFat_fat, if_neg hc.1.2, Volume.setFat_fat, if_neg hc.2]
    exact h.fat c (by simp [hc.1])

/-- Freeing the chain gives back all it has taken. -/
theorem free_fat (h : L.Grown V₀ V start l) : (V.free l).fat = V₀.fat := by
  funext c
  rw [Volume.free_fat]
  split
  next hc => exact (h.fresh c hc).symm
  next hc => exact h.fat c hc

end Grown

end Layout

section Put

variable {L : Layout} {V : Volume} {c size off s m : ℕ} {w : List ℕ} {data : ℕ → UInt8}

theorem putSectors_data_of_ne {c' : ℕ} (h : c' ≠ c) :
    (V.putSectors c data size off s m).data c' = V.data c' := Function.update_of_ne h _ _

theorem putSectors_data_self (V : Volume) (c : ℕ) (data : ℕ → UInt8) (size off s m t : ℕ) :
    (V.putSectors c data size off s m).data c t =
      if s ≤ t ∧ t < s + m ∧ off + 512 * t < size then
        dataSector data (off + 512 * t) (min (size - (off + 512 * t)) 512)
      else V.data c t := by
  simp only [Volume.putSectors, Function.update_self]

/-- Nothing is put where the data has ended. -/
theorem putSectors_of_le (h : m = 0 ∨ size ≤ off + 512 * s) :
    V.putSectors c data size off s m = V := by
  ext1
  · rfl
  · funext c' t
    by_cases hc : c' = c
    · subst hc
      rw [putSectors_data_self, if_neg (by omega)]
    · rw [putSectors_data_of_ne hc]

/-- The first sector, and then the others. -/
theorem putSectors_succ (h : off + 512 * s < size) :
    (V.setSector c s (dataSector data (off + 512 * s)
      (min (size - (off + 512 * s)) 512))).putSectors
      c data size off (s + 1) m = V.putSectors c data size off s (m + 1) := by
  ext1
  · rfl
  · funext c' t
    by_cases hc : c' = c
    · subst hc
      rw [putSectors_data_self, putSectors_data_self, Volume.setSector_data]
      by_cases ht : t = s
      · subst ht
        rw [if_neg (by omega), if_pos ⟨rfl, rfl⟩, if_pos ⟨le_rfl, by omega, h⟩]
      · rw [if_neg (c := c' = c' ∧ t = s) fun h => ht h.2]
        congr 1
        exact propext ⟨fun h => ⟨by omega, by omega, h.2.2⟩, fun h => ⟨by omega, by omega, h.2.2⟩⟩
    · rw [putSectors_data_of_ne hc, putSectors_data_of_ne hc, Volume.setSector_data,
        if_neg fun h => hc h.1]

private theorem range_append_range' (a b : ℕ) :
    List.range a ++ List.range' a b = List.range (a + b) := by
  rw [List.range_add, List.range'_eq_map_range]

theorem dataSector_fileByte (data : ℕ → UInt8) (size off : ℕ) :
    (List.range 512).map (dataSector data off (min (size - off) 512)) =
      (List.range' off 512).map (fileByte data size) := by
  rw [List.range'_eq_map_range, List.map_map]
  apply List.map_congr_left
  intro i hi
  have hlt := List.mem_range.mp hi
  simp only [dataSector, fileByte, Function.comp_apply]
  congr 1
  exact propext ⟨fun h => by omega, fun h => by omega⟩

/-- The first `k` sectors of a cluster that the data reaches. -/
theorem take_bytesOf_put {k : ℕ} (hk : k ≤ L.sectorsPerCluster)
    (hsize : ∀ t < k, off + 512 * t < size) :
    (L.bytesOf (V.putSectors c data size off 0 L.sectorsPerCluster) [c]).take (512 * k) =
      (List.range' off (512 * k)).map (fileByte data size) := by
  have hfront (j : ℕ) (hj : j ≤ k) :
      ((List.range j).flatMap fun t => (List.range 512).map
        ((V.putSectors c data size off 0 L.sectorsPerCluster).data c t)) =
        (List.range' off (512 * j)).map (fileByte data size) := by
    induction j with
    | zero => rfl
    | succ j ih =>
      rw [List.range_succ (n := j), List.flatMap_append, ih (by omega), List.flatMap_singleton,
        putSectors_data_self, if_pos ⟨Nat.zero_le _, by omega, hsize j (by omega)⟩,
        dataSector_fileByte, ← List.map_append, List.range'_append_1, Nat.mul_succ]
  have hlen : (List.range' off (512 * k)).length = 512 * k := List.length_range'
  have hsplit : List.range L.sectorsPerCluster =
      List.range k ++ List.range' k (L.sectorsPerCluster - k) := by
    rw [range_append_range', Nat.add_sub_of_le hk]
  rw [Layout.bytesOf, Layout.sectorsOf, List.flatMap_singleton, List.flatMap_map, hsplit,
    List.flatMap_append, hfront k le_rfl]
  exact List.take_left' (by rw [List.length_map, hlen])

/-- The data in the last cluster of a chain follows that in the others. -/
theorem take_bytesOf_append {k : ℕ} (hc : c ∉ w)
    (hw : L.bytesOf V w = (List.range (L.clusterBytes * w.length)).map (fileByte data size))
    (hk : k ≤ L.sectorsPerCluster)
    (hsize : ∀ t < k, L.clusterBytes * w.length + 512 * t < size) :
    (L.bytesOf (V.putSectors c data size (L.clusterBytes * w.length) 0 L.sectorsPerCluster)
        (w ++ [c])).take (L.clusterBytes * w.length + 512 * k) =
      (List.range (L.clusterBytes * w.length + 512 * k)).map (fileByte data size) := by
  have hkeep : L.bytesOf (V.putSectors c data size (L.clusterBytes * w.length) 0
      L.sectorsPerCluster) w = L.bytesOf V w := by
    apply Layout.bytesOf_congr
    intro a ha
    apply putSectors_data_of_ne
    rintro rfl
    exact hc ha
  rw [Layout.bytesOf_append, hkeep, ← Layout.length_bytesOf V w, List.take_length_add_append,
    Layout.length_bytesOf, take_bytesOf_put hk hsize, hw, ← List.map_append, range_append_range']

end Put

namespace Layout.Filling

variable {L : Layout} {V V₀ : Volume} {start size cur new : ℕ} {w : List ℕ} {data : ℕ → UInt8}

/-- The volume after the last cluster of the chain has been written. -/
abbrev put (L : Layout) (V : Volume) (data : ℕ → UInt8) (size : ℕ) (w : List ℕ) (cur : ℕ) :
    Volume := V.putSectors cur data size (L.clusterBytes * w.length) 0 L.sectorsPerCluster

theorem not_mem (h : L.Filling V₀ V start data size w cur) : cur ∉ w := fun hmem =>
  List.disjoint_of_nodup_append h.grown.chain.nodup hmem (by simp)

theorem put_others (h : L.Filling V₀ V start data size w cur) {c : ℕ} (hc : c ∉ w ++ [cur]) :
    (put L V data size w cur).data c = V₀.data c := by
  simp only [List.mem_append, List.mem_singleton, not_or] at hc
  rw [putSectors_data_of_ne hc.2, h.others c hc.1]

theorem length_append_cur (w : List ℕ) (cur : ℕ) : L.clusterBytes * (w ++ [cur]).length =
    L.clusterBytes * w.length + L.clusterBytes := by
  rw [List.length_append, List.length_singleton, Nat.mul_add, Nat.mul_one]

/-- The data ends in the last cluster. -/
theorem filled (h : L.Filling V₀ V start data size w cur)
    (hlt : L.clusterBytes * w.length < size)
    (hle : size ≤ L.clusterBytes * w.length + L.clusterBytes) :
    L.Filled V₀ (put L V data size w cur) start data size (w ++ [cur]) := by
  have hB := L.clusterBytes_pos
  obtain ⟨k, hk⟩ : ∃ k, 512 * ((size + 511) / 512) = L.clusterBytes * w.length + 512 * k ∧
      k ≤ L.sectorsPerCluster ∧ ∀ t < k, L.clusterBytes * w.length + 512 * t < size := by
    have hoff : L.clusterBytes * w.length = 512 * (L.sectorsPerCluster * w.length) :=
      Nat.mul_assoc ..
    refine ⟨(size + 511) / 512 - L.sectorsPerCluster * w.length, ?_, ?_, ?_⟩
    · omega
    · have hbytes : L.clusterBytes = 512 * L.sectorsPerCluster := rfl
      omega
    · intro t ht
      omega
  constructor
  · exact h.grown.congr rfl
  · exact fun c hc => h.put_others hc
  · rw [List.length_append, List.length_singleton]
    symm
    rw [Nat.div_eq_iff hB]
    have hmul : (w.length + 1) * L.clusterBytes = L.clusterBytes * w.length + L.clusterBytes := by
      rw [Nat.mul_comm, Nat.mul_add, Nat.mul_one]
    omega
  · rw [hk.1]
    exact take_bytesOf_append h.not_mem h.bytes hk.2.1 hk.2.2

/-- The last cluster is full and a free one is put behind it. -/
theorem snoc (h : L.Filling V₀ V start data size w cur)
    (hlt : L.clusterBytes * w.length + L.clusterBytes < size)
    (hf : (put L V data size w cur).firstFree L = some new) :
    L.Filling V₀ (((put L V data size w cur).setFat new eoc).setFat cur new) start data size
      (w ++ [cur]) new := by
  obtain ⟨hnew, hfree⟩ := Volume.firstFree_spec hf
  have hne : new ≠ cur := by
    rintro rfl
    exact (h.grown.chain.used new (by simp)).2 hfree
  constructor
  · exact (h.grown.congr rfl : L.Grown V₀ (put L V data size w cur) start _).snoc hnew hfree
  · rw [Volume.setFat_fat, if_neg hne, Volume.setFat_fat, if_pos rfl]
  · exact fun c hc => h.put_others hc
  · have htake := take_bytesOf_append (L := L) h.not_mem h.bytes le_rfl (fun t ht => by
      unfold clusterBytes at hlt ⊢
      omega)
    rw [List.take_of_length_le (by
      rw [length_bytesOf, length_append_cur]
      rfl)] at htake
    rw [length_append_cur]
    exact htake

end Layout.Filling

section Run

variable {δ : Type} (D : ReliableDisk δ) {L : Layout} {S₀ : ℕ → Sector} {V V₀ : Volume} {d d' : δ}
  {c cur new prev start size off n s m : ℕ} {w : List ℕ} {data : ℕ → UInt8}

/-- The loop over the sectors of one cluster. -/
theorem writeSectors_holds (h : L.Holds S₀ (D.sectors d) V) (hc : L.IsCluster c) (hoff : off < size)
    (hm : s + m = L.sectorsPerCluster) (data : ℕ → UInt8) :
    ∃ d', writeSectors D.toDevice L.toGeometry data off (min (size - off) L.clusterBytes)
        ((List.range' s m).map (L.sectorAt c)) d (min (512 * s) (min (size - off) L.clusterBytes)) =
        (min (size - off) L.clusterBytes, true, d') ∧
      L.Holds S₀ (D.sectors d') (V.putSectors c data size off s m) := by
  obtain ⟨B, hB⟩ : ∃ B, B = L.clusterBytes := ⟨_, rfl⟩
  have hB' : B = 512 * (s + m) := by rw [hB, hm, Layout.clusterBytes]
  rw [← hB]
  induction m generalizing s d V with
  | zero =>
    have hdone : min (512 * s) (min (size - off) B) = min (size - off) B := by omega
    refine ⟨d, ?_, ?_⟩
    · rw [hdone]
      rfl
    · rw [putSectors_of_le (.inl rfl)]
      exact h
  | succ m ih =>
    rw [List.range'_succ, List.map_cons, writeSectors]
    by_cases hlt : off + 512 * s < size
    · -- there is data for this sector
      rw [if_pos (by omega)]
      obtain ⟨d₁, hwrite, hd₁⟩ := write_sectorAt D h hc (by omega : s < L.sectorsPerCluster)
        (dataSector data (off + 512 * s) (min (size - (off + 512 * s)) 512))
      have hdone : min (512 * s) (min (size - off) B) = 512 * s := by omega
      have hchunk : min (min (size - off) B - 512 * s) 512 = min (size - (off + 512 * s)) 512 := by
        omega
      have hnext : 512 * s + min (size - (off + 512 * s)) 512 =
          min (512 * (s + 1)) (min (size - off) B) := by omega
      obtain ⟨d', hrest, hd'⟩ := ih (s := s + 1) hd₁ (by omega) (by omega)
      refine ⟨d', ?_, ?_⟩
      · simp only [hdone, L.bytes_eq, hchunk, hwrite, hnext]
        exact hrest
      · rw [← putSectors_succ hlt]
        exact hd'
    · have hdone : min (512 * s) (min (size - off) B) = min (size - off) B := by omega
      refine ⟨d, ?_, ?_⟩
      · rw [hdone, if_neg (lt_irrefl _)]
      · rw [putSectors_of_le (.inr (by omega))]
        exact h

theorem extendChain_none (h : L.Holds S₀ (D.sectors d) V) (hb : L.Bounded S₀) (hc : eoc ≤ c)
    (hf : V.firstFree L = none) (prev : ℕ) :
    extendChain D.toDevice L.toGeometry d c prev = (none, d) := by
  have hlink : isLink c = false := by simp [isLink, isEoc, hc]
  simp [extendChain, hlink, allocCluster_none D h hb hf]

theorem extendChain_some (h : L.Holds S₀ (D.sectors d) V) (hb : L.Bounded S₀) (hc : eoc ≤ c)
    (hf : V.firstFree L = some new) (hprev : L.IsCluster prev) :
    ∃ d', extendChain D.toDevice L.toGeometry d c prev = (some new, d') ∧
      L.Holds S₀ (D.sectors d') ((V.setFat new eoc).setFat prev new) := by
  have hnew := (Volume.firstFree_spec hf).1
  have hlink : isLink c = false := by simp [isLink, isEoc, hc]
  have hmod : new % 2 ^ 28 = new := Nat.mod_eq_of_lt (L.lt_two_pow hnew.lt_entries)
  obtain ⟨d₁, halloc, hd₁⟩ := allocCluster_some D h hb hf
  obtain ⟨d₂, hset, hd₂⟩ := setFatEntry_holds D hd₁ hprev new
  rw [hmod] at hd₂
  refine ⟨d₂, ?_, hd₂⟩
  have h0 : prev ≠ 0 := by
    have := hprev.1
    omega
  have hnew0 : new ≠ 0 := by
    have := hnew.1
    omega
  unfold extendChain
  rw [hlink, if_neg Bool.false_ne_true, halloc]
  simp only [if_neg h0, hset]

/-- A round that takes a new cluster goes on like one that finds this cluster on the chain. -/
theorem writeDataLoop_extend (hnew : L.IsCluster new) (hoff : off < size)
    (h : extendChain D.toDevice L.toGeometry d c prev = (some new, d')) :
    writeDataLoop D.toDevice L.toGeometry data size (n + 1) d c off prev =
      writeDataLoop D.toDevice L.toGeometry data size (n + 1) d' new off prev := by
  have hstay : extendChain D.toDevice L.toGeometry d' new prev = (some new, d') :=
    if_pos hnew.isLink
  rw [writeDataLoop, writeDataLoop, if_pos hoff, if_pos hoff, h, hstay]

/-- One round: the last cluster of the chain is written. -/
theorem writeDataLoop_put (h : L.Holds S₀ (D.sectors d) V) (hc : L.IsCluster c) (hoff : off < size)
    (data : ℕ → UInt8) (n prev : ℕ) :
    ∃ d', writeDataLoop D.toDevice L.toGeometry data size (n + 1) d c off prev =
        writeDataLoop D.toDevice L.toGeometry data size n d' (V.fat c)
          (off + min (size - off) L.clusterBytes) c ∧
      L.Holds S₀ (D.sectors d') (V.putSectors c data size off 0 L.sectorsPerCluster) := by
  obtain ⟨d', hwrite, hd'⟩ := writeSectors_holds D h hc hoff (Nat.zero_add _) data
  rw [Nat.mul_zero, Nat.zero_min, ← List.range_eq_range'] at hwrite
  refine ⟨d', ?_, hd'⟩
  have hext : extendChain D.toDevice L.toGeometry d c prev = (some c, d) := if_pos hc.isLink
  have hbytes : L.bytesPerSector * L.sectorsPerCluster = L.clusterBytes := by
    rw [L.bytes_eq, Layout.clusterBytes]
  have hfat : (V.putSectors c data size off 0 L.sectorsPerCluster).fat c = V.fat c := rfl
  rw [writeDataLoop, if_pos hoff, hext]
  simp only [hbytes, hwrite]
  rw [nextCluster_eq D hd' hc, hfat]

/-- The loop from a chain on whose last cluster is to be written. -/
theorem writeDataLoop_filling (h : L.Holds S₀ (D.sectors d) V) (hb : L.Bounded S₀)
    (hF : L.Filling V₀ V start data size w cur) (hlt : L.clusterBytes * w.length < size)
    (hn : n + w.length = maxSteps) :
    ∃ d' V' l, L.Holds S₀ (D.sectors d') V' ∧
      (writeDataLoop D.toDevice L.toGeometry data size n d cur (L.clusterBytes * w.length) prev =
          some (true, d') ∧ L.Filled V₀ V' start data size l ∨
        writeDataLoop D.toDevice L.toGeometry data size n d cur (L.clusterBytes * w.length) prev =
          some (false, d') ∧ L.Exhausted V₀ V' start size l) := by
  have hlen := hF.grown.chain.length_lt
  rw [List.length_append, List.length_singleton] at hlen
  have hcur := (hF.grown.chain.used cur (by simp)).1
  induction n generalizing d V w cur prev with
  | zero => omega
  | succ n ih =>
    obtain ⟨n, rfl⟩ : ∃ k, n = k + 1 := ⟨n - 1, by omega⟩
    obtain ⟨d₁, hput, hd₁⟩ := writeDataLoop_put D h hcur hlt data (n + 1) prev
    rw [hput]
    by_cases hle : size ≤ L.clusterBytes * w.length + L.clusterBytes
    · refine ⟨d₁, _, _, hd₁, .inl ⟨?_, hF.filled hlt hle⟩⟩
      rw [writeDataLoop, if_neg (by omega)]
    · have hgo := Nat.not_le.mp hle
      have hoff : L.clusterBytes * w.length + min
          (size - L.clusterBytes * w.length) L.clusterBytes =
          L.clusterBytes * (w ++ [cur]).length := by
        rw [Layout.Filling.length_append_cur]
        omega
      have hgo' : L.clusterBytes * (w ++ [cur]).length < size := by
        rw [Layout.Filling.length_append_cur]
        exact hgo
      rw [hoff]
      cases hf : (V.putSectors cur data size (L.clusterBytes * w.length) 0
          L.sectorsPerCluster).firstFree L with
      | none =>
        refine ⟨d₁, _, _, hd₁, .inr ⟨?_, hF.grown.congr rfl, hgo', hf⟩⟩
        rw [writeDataLoop, if_pos hgo', extendChain_none D hd₁ hb hF.last hf]
      | some new =>
        obtain ⟨d₂, hext, hd₂⟩ := extendChain_some D hd₁ hb hF.last hf hcur
        have hnew := (Volume.firstFree_spec hf).1
        have hF' := hF.snoc hgo hf
        rw [writeDataLoop_extend D hnew hgo' hext]
        apply ih hd₂ hF' hgo'
        · rw [List.length_append, List.length_singleton]
          omega
        · have hlen' := hF'.grown.chain.length_lt
          rwa [List.length_append, List.length_singleton] at hlen'
        · exact hnew

theorem allocCluster_allocated (hb : L.Bounded (D.sectors d)) (hstart : start ≠ 0)
    (h : allocCluster D.toDevice L.toGeometry d = (start, d')) :
    L.Allocated (D.sectors d) (D.sectors d') start := by
  cases hf : (L.view (D.sectors d)).firstFree L with
  | none =>
    rw [allocCluster_none D (.refl _) hb hf] at h
    exact absurd (Prod.mk.inj h).1.symm hstart
  | some c =>
    obtain ⟨d₁, halloc, hd₁⟩ := allocCluster_some D (.refl _) hb hf
    rw [halloc] at h
    obtain ⟨rfl, rfl⟩ := Prod.mk.inj h
    obtain ⟨hc, hfree⟩ := Volume.firstFree_spec hf
    exact ⟨hc, hfree, eoc, le_rfl, hd₁⟩

/-- The two ways in which writing a file to a fresh cluster ends. -/
theorem writeFileData_cases (hb : L.Bounded S₀) (h : L.Allocated S₀ (D.sectors d) start)
    (hsize : 0 < size) (data : ℕ → UInt8) :
    ∃ d' V' l, L.Holds S₀ (D.sectors d') V' ∧
      (writeFileData D.toDevice L.toGeometry d start data size = some (true, d') ∧
          L.Filled (L.view S₀) V' start data size l ∨
        writeFileData D.toDevice L.toGeometry d start data size = some (false, d') ∧
          L.Exhausted (L.view S₀) V' start size l) := by
  obtain ⟨e, he, hd⟩ := h.marked
  have hF : L.Filling (L.view S₀) ((L.view S₀).setFat start e) start data size [] start := by
    refine ⟨.single h.isCluster h.free he, ?_, fun _ _ => rfl, rfl⟩
    rw [Volume.setFat_fat, if_pos rfl]
    exact he
  exact writeDataLoop_filling D hd hb hF hsize rfl

theorem firstFree_eq_none (h : V.firstFree L = none) (hc : L.IsCluster c) : V.fat c ≠ 0 := by
  intro hfree
  rw [Volume.firstFree, List.find?_eq_none] at h
  have h2 := hc.1
  have hlt := hc.lt_entries
  have hmem : c ∈ List.range' 2 (L.sectorsPerFat * 128 - 2) := List.mem_range'_1.mpr (by omega)
  exact h c hmem (by simp [hc, hfree])

/-- Writing data of any length to a fresh cluster. Where the server confirms it, the chain has as
many clusters as the data needs and holds the data, followed by zeros up to the end of the last
sector written; the clusters were free, and nothing else has changed. Otherwise no cluster is free,
and freeing the chain restores the tables. -/
theorem writeFileData_correct (hb : L.Bounded S₀) (h : L.Allocated S₀ (D.sectors d) start)
    (hsize : 0 < size) (data : ℕ → UInt8) :
    ∃ ok d', writeFileData D.toDevice L.toGeometry d start data size = some (ok, d') ∧
      (ok = true → ∃ l, L.Chain (L.view (D.sectors d')) start l ∧
        l.length = (size + L.clusterBytes - 1) / L.clusterBytes ∧
        (L.bytesOf (L.view (D.sectors d')) l).take (512 * ((size + 511) / 512)) =
          (List.range (512 * ((size + 511) / 512))).map (fileByte data size) ∧
        (∀ c ∈ l, (L.view S₀).fat c = 0) ∧
        L.TablesKept (D.sectors d) (D.sectors d') l ∧
        ∀ c ∉ l, L.IsCluster c → ∀ s < L.sectorsPerCluster,
          D.sectors d' (L.lba c s) = D.sectors d (L.lba c s)) ∧
      (ok = false → (∀ c, L.IsCluster c → nextCluster D.toDevice L.toGeometry d' c ≠ 0) ∧
        ∃ d'', freeClusterChain D.toDevice L.toGeometry d' start = some d'' ∧
          L.TablesKept S₀ (D.sectors d'') []) := by
  obtain ⟨e, -, hd⟩ := h.marked
  obtain ⟨d', V', l, hd', ⟨hres, hfill⟩ | ⟨hres, hfull⟩⟩ := writeFileData_cases D hb h hsize data
  · refine ⟨true, d', hres, fun _ => ⟨l, ?_⟩, fun hok => (by cases hok)⟩
    rw [hd'.view_eq]
    have hstart : start ∈ l := by
      cases l with
      | nil =>
        have hlen : 0 = (size + L.clusterBytes - 1) / L.clusterBytes := hfill.length
        have hpos := Nat.div_pos (by omega : L.clusterBytes ≤ size + L.clusterBytes - 1)
          L.clusterBytes_pos
        omega
      | cons a l =>
        obtain ⟨rfl, -⟩ := Layout.Chain.cons_iff.mp hfill.grown.chain
        simp
    refine ⟨hfill.grown.chain, hfill.length, hfill.bytes, hfill.grown.fresh, ?_, ?_⟩
    · apply hd.tablesKept hd'
      intro c hc
      have hne : c ≠ start := fun heq => hc (heq ▸ hstart)
      rw [hfill.grown.fat c hc, Volume.setFat_fat, if_neg hne]
    · intro c hc hcl s hs
      rw [hd'.data_eq hcl hs, hd.data_eq hcl hs, hfill.others c hc]
      rfl
  · refine ⟨false, d', hres, fun hok => (by cases hok), fun _ => ⟨?_, ?_⟩⟩
    · intro c hc
      rw [nextCluster_eq D hd' hc]
      exact firstFree_eq_none hfull.full hc
    · obtain ⟨d'', hfree, hd''⟩ := freeClusterChain_holds D hd' hfull.grown.chain
      refine ⟨d'', hfree, Layout.Holds.tablesKept (.refl S₀) hd'' fun c _ => ?_⟩
      rw [hfull.grown.free_fat]

end Run

section Sample

/-- Two of the clusters of the small volume stay free while a chain of one cluster grows. -/
private theorem sampleVolume_not_exhausted {V' : Volume} {l : List ℕ} :
    ¬ sampleLayout.Exhausted (sampleVolume 0) V' 3 1025 l := by
  intro h
  have hshort : 1024 * l.length < 1025 := h.short
  have hmem (c : ℕ) (hc : sampleLayout.IsCluster c) (hfree : (sampleVolume 0).fat c = 0) :
      c ∈ l := by
    by_contra hn
    exact firstFree_eq_none h.full hc ((h.grown.fat c hn).trans hfree)
  have h4 := hmem 4 (by decide) (by decide +kernel)
  have h5 := hmem 5 (by decide) (by decide +kernel)
  obtain ⟨a, rfl⟩ := List.length_eq_one_iff.mp
    (by have := List.length_pos_of_mem h4; omega : l.length = 1)
  rw [List.mem_singleton] at h4 h5
  omega

/-- A file of 1025 sevens takes the second cluster for its last byte. -/
theorem writeFileData_correct_sample : ∃ S S' l,
    allocCluster arrayDisk.toDevice sampleLayout.toGeometry (sampleServer 0).disk = (3, S) ∧
    writeFileData arrayDisk.toDevice sampleLayout.toGeometry S 3 (fun _ => 7) 1025 =
      some (true, S') ∧
    sampleLayout.Chain (sampleLayout.view S') 3 l ∧ l.length = 2 ∧
    (sampleLayout.bytesOf (sampleLayout.view S') l).take 1536 =
      (List.range 1536).map (fileByte (fun _ => 7) 1025) := by
  have hb := (sampleServer_consistent (n := 0) (by decide)).bounded
  have hf : (sampleVolume 0).firstFree sampleLayout = some 3 := by decide +kernel
  obtain ⟨S, halloc, -⟩ := allocCluster_some arrayDisk (.refl (sampleServer 0).disk) hb hf
  have hS := allocCluster_allocated arrayDisk hb (by decide) halloc
  obtain ⟨ok, S', hres, htrue, -⟩ :=
    writeFileData_correct arrayDisk hb hS (by decide : 0 < 1025) (fun _ => 7)
  obtain ⟨S₁, V₁, l₁, -, ⟨hres₁, -⟩ | ⟨-, hfull⟩⟩ :=
    writeFileData_cases arrayDisk hb hS (by decide : 0 < 1025) (fun _ => 7)
  · rw [hres₁] at hres
    obtain ⟨rfl, rfl⟩ := Prod.mk.inj (Option.some.inj hres)
    obtain ⟨l, hl, hlen, hbytes, -⟩ := htrue rfl
    exact ⟨S, S₁, l, halloc, hres₁, hl, hlen, hbytes⟩
  · exact absurd hfull sampleVolume_not_exhausted

end Sample

end Mukrn.Fat32
