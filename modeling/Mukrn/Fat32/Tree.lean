import Mathlib.Data.List.TakeWhile
import Mathlib.Data.Set.Lattice
import Mathlib.Order.CompletePartialOrder
import Mukrn.Fat32.Effects

/-! The directory tree of a volume and the clusters its chains own. -/
namespace Mukrn.Fat32

/-- Entries with a chain of their own. -/
def Entry.isOwner (e : Entry) : Bool := e.isLive && !e.isDot

/-- Behind the end mark of a directory there are only end marks. -/
def Volume.Tidy (V : Volume) (ps : List Slot) : Prop :=
  ∀ p ∈ ps.dropWhile fun p => !(V.entry p).isEnd, (V.entry p).isEnd = true

namespace Volume

variable {V V' : Volume} {ps : List Slot} {p : Slot} {name : List UInt8}

theorem not_end_of_active (h : p ∈ V.active ps) : (V.entry p).isEnd = false := by
  simpa using List.mem_takeWhile_imp h

theorem Tidy.mem_active (h : V.Tidy ps) : p ∈ V.active ps ↔ p ∈ ps ∧ (V.entry p).isEnd = false := by
  constructor
  · intro hp
    exact ⟨mem_of_active hp, not_end_of_active hp⟩
  · rintro ⟨hp, hend⟩
    rw [← List.takeWhile_append_dropWhile (p := fun p => !(V.entry p).isEnd) (l := ps)] at hp
    rcases List.mem_append.mp hp with hp | hp
    · exact hp
    · rw [h p hp] at hend
      cases hend

/-- In a tidy directory a name leads to the first live entry with it. -/
theorem Tidy.find_eq (h : V.Tidy ps) :
    V.find name ps = ps.find? fun p => (V.entry p).isNamed name := by
  have hrest : (ps.dropWhile fun p => !(V.entry p).isEnd).find?
      (fun p => (V.entry p).isNamed name) = none := by
    apply List.find?_eq_none.mpr
    intro p hp hnamed
    have hend := h p hp
    simp only [Entry.isEnd, Entry.isNamed, Entry.isLive, Entry.isFree] at hend hnamed
    simp [hend] at hnamed
  conv_rhs => rw [← List.takeWhile_append_dropWhile (p := fun p => !(V.entry p).isEnd) (l := ps)]
  rw [List.find?_append, hrest, Option.or_none]
  rfl

theorem entry_congr (h : V'.data p.cluster = V.data p.cluster) : V'.entry p = V.entry p := by
  rw [entry, entry, h]

theorem active_congr (h : ∀ p ∈ ps, (V'.entry p).isEnd = (V.entry p).isEnd) :
    V'.active ps = V.active ps := by
  unfold active
  induction ps with
  | nil => rfl
  | cons p ps ih =>
    rw [List.takeWhile_cons, List.takeWhile_cons, h p (by simp), ih fun q hq => h q (by simp [hq])]

theorem Tidy.congr (h : V.Tidy ps) (hV : ∀ p ∈ ps, (V'.entry p).isEnd = (V.entry p).isEnd) :
    V'.Tidy ps := by
  have hdrop : (ps.dropWhile fun p => !(V'.entry p).isEnd) =
      ps.dropWhile fun p => !(V.entry p).isEnd := by
    clear h
    induction ps with
    | nil => rfl
    | cons p ps ih =>
      rw [List.dropWhile_cons, List.dropWhile_cons, hV p (by simp),
        ih fun q hq => hV q (by simp [hq])]
  intro p hp
  rw [hdrop] at hp
  rw [hV p ((List.dropWhile_suffix _).subset hp)]
  exact h p hp

end Volume

/-- A directory: its chain, and for every entry before the end mark that has a chain of its own the
clusters below it. No two chains share a cluster. -/
structure Layout.Dir (L : Layout) (V : Volume) (sub : Bool → ℕ → Set ℕ → Prop) (s : ℕ)
    (l : List ℕ) (own : Slot → Set ℕ) : Prop where
  chain : L.Chain V s l
  owner : ∀ p ∈ V.active (L.slots l), (V.entry p).isOwner = true →
    sub (V.entry p).isDir (V.entry p).cluster (own p)
  other : ∀ p, ¬ (p ∈ V.active (L.slots l) ∧ (V.entry p).isOwner = true) → own p = ∅
  apart : ∀ p, ∀ c ∈ l, c ∉ own p
  disjoint : ∀ p q, p ≠ q → Disjoint (own p) (own q)

/-- All clusters of a directory and of what is below it. -/
def allOf (l : List ℕ) (own : Slot → Set ℕ) : Set ℕ := {c | c ∈ l} ∪ ⋃ p, own p

/-- A directory only depends on the clusters it owns. -/
theorem Layout.Dir.congr {L : Layout} {V V' : Volume} {sub sub' : Bool → ℕ → Set ℕ → Prop} {s : ℕ}
    {l : List ℕ} {own : Slot → Set ℕ} (h : L.Dir V sub s l own)
    (hV : ∀ c ∈ allOf l own, V'.fat c = V.fat c ∧ V'.data c = V.data c)
    (hsub : ∀ p b s, sub b s (own p) → sub' b s (own p)) : L.Dir V' sub' s l own := by
  have hentry (p : Slot) (hp : p ∈ L.slots l) : V'.entry p = V.entry p :=
    Volume.entry_congr (hV _ (.inl (Layout.mem_slots.mp hp).1)).2
  have hactive : V'.active (L.slots l) = V.active (L.slots l) :=
    Volume.active_congr fun p hp => by rw [hentry p hp]
  refine ⟨h.chain.congr fun c hc => (hV c (.inl hc)).1, ?_, ?_, h.apart, h.disjoint⟩
  · intro p hp howner
    rw [hactive] at hp
    rw [hentry p (Volume.mem_of_active hp)] at howner ⊢
    exact hsub p _ _ (h.owner p hp howner)
  · intro p hp
    apply h.other
    rintro ⟨hmem, howner⟩
    refine hp ⟨hactive ▸ hmem, ?_⟩
    rw [hentry p (Volume.mem_of_active hmem)]
    exact howner

/-- One slot of a tidy directory gets another entry, with clusters that no one else owns. -/
theorem Layout.Dir.replace {L : Layout} {V V' : Volume} {sub sub' : Bool → ℕ → Set ℕ → Prop} {s : ℕ}
    {l : List ℕ} {own : Slot → Set ℕ} (h : L.Dir V sub s l own) (hV : V.Tidy (L.slots l)) {t : Slot}
    {M : Set ℕ} (hl : ∀ c ∈ l, V'.fat c = V.fat c)
    (hentry : ∀ q ∈ L.slots l, q ≠ t → V'.entry q = V.entry q) (htidy : V'.Tidy (L.slots l))
    (hsub : ∀ q ≠ t, ∀ b s, sub b s (own q) → sub' b s (own q))
    (hnew : t ∈ V'.active (L.slots l) → (V'.entry t).isOwner = true →
      sub' (V'.entry t).isDir (V'.entry t).cluster M)
    (hnone : ¬ (t ∈ V'.active (L.slots l) ∧ (V'.entry t).isOwner = true) → M = ∅)
    (hapart : ∀ c ∈ l, c ∉ M) (hdisj : ∀ q ≠ t, Disjoint M (own q)) :
    L.Dir V' sub' s l (Function.update own t M) := by
  have hactive {q : Slot} (hq : q ≠ t) :
      q ∈ V'.active (L.slots l) ∧ (V'.entry q).isOwner = true ↔
        q ∈ V.active (L.slots l) ∧ (V.entry q).isOwner = true := by
    rw [htidy.mem_active, hV.mem_active]
    constructor
    · rintro ⟨⟨hm, hend⟩, howner⟩
      rw [hentry q hm hq] at hend howner
      exact ⟨⟨hm, hend⟩, howner⟩
    · rintro ⟨⟨hm, hend⟩, howner⟩
      rw [hentry q hm hq]
      exact ⟨⟨hm, hend⟩, howner⟩
  refine ⟨h.chain.congr hl, ?_, ?_, ?_, ?_⟩
  · intro q hq howner
    by_cases hqt : q = t
    · subst hqt
      rw [Function.update_self]
      exact hnew hq howner
    · obtain ⟨hq', howner'⟩ := (hactive hqt).mp ⟨hq, howner⟩
      rw [Function.update_of_ne hqt, hentry q (Volume.mem_of_active hq) hqt]
      exact hsub q hqt _ _ (h.owner q hq' howner')
  · intro q hq
    by_cases hqt : q = t
    · subst hqt
      rw [Function.update_self]
      exact hnone hq
    · rw [Function.update_of_ne hqt]
      exact h.other q fun hn => hq ((hactive hqt).mpr hn)
  · intro q c hc
    by_cases hqt : q = t
    · subst hqt
      rw [Function.update_self]
      exact hapart c hc
    · rw [Function.update_of_ne hqt]
      exact h.apart q c hc
  · intro q r hqr
    by_cases hqt : q = t
    · subst hqt
      rw [Function.update_self, Function.update_of_ne hqr.symm]
      exact hdisj r hqr.symm
    · rw [Function.update_of_ne hqt]
      by_cases hrt : r = t
      · subst hrt
        rw [Function.update_self]
        exact (hdisj q hqt).symm
      · rw [Function.update_of_ne hrt]
        exact h.disjoint q r hqr

/-- What an entry owns, looked at to a depth: a file its chain, a directory its chain and all that
its entries own. -/
def Layout.Owns (L : Layout) (V : Volume) : ℕ → Bool → ℕ → Set ℕ → Prop
  | 0 => fun isDir s M => isDir = false ∧ ∃ l, L.Chain V s l ∧ M = {c | c ∈ l}
  | k + 1 => fun isDir s M =>
    if isDir then ∃ l own, L.Dir V (L.Owns V k) s l own ∧ M = allOf l own
    else ∃ l, L.Chain V s l ∧ M = {c | c ∈ l}

namespace Layout.Owns

variable {L : Layout} {V V' : Volume} {k s : ℕ} {isDir : Bool} {M : Set ℕ}

theorem file_iff : L.Owns V k false s M ↔ ∃ l, L.Chain V s l ∧ M = {c | c ∈ l} := by
  cases k <;> simp [Layout.Owns]

theorem dir_iff : L.Owns V (k + 1) true s M ↔
    ∃ l own, L.Dir V (L.Owns V k) s l own ∧ M = allOf l own := by
  simp [Layout.Owns]

theorem not_dir : ¬ L.Owns V 0 true s M := by
  rintro ⟨h, -⟩
  cases h

/-- An entry owns its own chain. -/
theorem chain (h : L.Owns V k isDir s M) : ∃ l, L.Chain V s l ∧ ∀ c ∈ l, c ∈ M := by
  cases isDir with
  | false =>
    obtain ⟨l, hl, rfl⟩ := file_iff.mp h
    exact ⟨l, hl, fun c hc => hc⟩
  | true =>
    cases k with
    | zero => exact absurd h not_dir
    | succ k =>
      obtain ⟨l, own, hd, rfl⟩ := dir_iff.mp h
      exact ⟨l, hd.chain, fun c hc => .inl hc⟩

/-- All clusters owned are in use. -/
theorem used (h : L.Owns V k isDir s M) : ∀ c ∈ M, L.IsCluster c ∧ V.fat c ≠ 0 := by
  induction k generalizing isDir s M with
  | zero =>
    obtain ⟨-, l, hl, rfl⟩ := h
    exact hl.used
  | succ k ih =>
    cases isDir with
    | false =>
      obtain ⟨l, hl, rfl⟩ := file_iff.mp h
      exact hl.used
    | true =>
      obtain ⟨l, own, hd, rfl⟩ := dir_iff.mp h
      rintro c (hc | hc)
      · exact hd.chain.used c hc
      · obtain ⟨p, hp⟩ := Set.mem_iUnion.mp hc
        by_cases howner : p ∈ V.active (L.slots l) ∧ (V.entry p).isOwner = true
        · exact ih (hd.owner p howner.1 howner.2) c hp
        · rw [hd.other p howner] at hp
          cases hp

/-- What is owned only depends on the clusters owned. -/
theorem congr (h : L.Owns V k isDir s M)
    (hV : ∀ c ∈ M, V'.fat c = V.fat c ∧ V'.data c = V.data c) : L.Owns V' k isDir s M := by
  induction k generalizing isDir s M with
  | zero =>
    obtain ⟨hb, l, hl, rfl⟩ := h
    exact ⟨hb, l, hl.congr fun c hc => (hV c hc).1, rfl⟩
  | succ k ih =>
    cases isDir with
    | false =>
      obtain ⟨l, hl, rfl⟩ := file_iff.mp h
      exact file_iff.mpr ⟨l, hl.congr fun c hc => (hV c hc).1, rfl⟩
    | true =>
      obtain ⟨l, own, hd, rfl⟩ := dir_iff.mp h
      refine dir_iff.mpr ⟨l, own, hd.congr hV fun p b s hp => ih hp ?_, rfl⟩
      intro c hc
      exact hV c (.inr (Set.mem_iUnion.mpr ⟨p, hc⟩))

end Layout.Owns

/-- The root directory and all below it are in order. -/
structure Layout.Sound (L : Layout) (V : Volume) (k : ℕ) (l : List ℕ) (own : Slot → Set ℕ) :
    Prop where
  root : L.Dir V (L.Owns V k) L.rootCluster l own
  tidy : V.Tidy (L.slots l)
  noDots : ∀ p ∈ L.slots l, (V.entry p).isLive = true → (V.entry p).isDot = false

namespace Layout.Sound

variable {L : Layout} {V V' : Volume} {k c : ℕ} {l : List ℕ} {own : Slot → Set ℕ} {p : Slot}
  {name : List UInt8}

theorem owns (h : L.Sound V k l own) : L.Owns V (k + 1) true L.rootCluster (allOf l own) :=
  Owns.dir_iff.mpr ⟨l, own, h.root, rfl⟩

/-- A free cluster is owned by no one. -/
theorem not_mem_of_free (h : L.Sound V k l own) (hc : V.fat c = 0) : c ∉ allOf l own :=
  fun hm => (h.owns.used c hm).2 hc

theorem active_of_live (h : L.Sound V k l own) (hp : p ∈ L.slots l)
    (hlive : (V.entry p).isLive = true) :
    p ∈ V.active (L.slots l) ∧ (V.entry p).isOwner = true := by
  refine ⟨h.tidy.mem_active.mpr ⟨hp, ?_⟩, ?_⟩
  · simp only [Entry.isLive, Entry.isFree, Bool.and_eq_true, Bool.not_eq_true',
      Bool.or_eq_false_iff]
      at hlive
    exact hlive.1.1
  · simp [Entry.isOwner, hlive, h.noDots p hp hlive]

theorem owns_entry (h : L.Sound V k l own) (hp : p ∈ L.slots l)
    (hlive : (V.entry p).isLive = true) :
    L.Owns V k (V.entry p).isDir (V.entry p).cluster (own p) := by
  obtain ⟨hact, howner⟩ := h.active_of_live hp hlive
  exact h.root.owner p hact howner

theorem mem_allOf_of_own (hc : c ∈ own p) : c ∈ allOf l own := .inr (Set.mem_iUnion.mpr ⟨p, hc⟩)

/-- Changes outside all chains. -/
theorem congr (h : L.Sound V k l own)
    (hV : ∀ c ∈ allOf l own, V'.fat c = V.fat c ∧ V'.data c = V.data c) : L.Sound V' k l own := by
  have hentry (p : Slot) (hp : p ∈ L.slots l) : V'.entry p = V.entry p :=
    Volume.entry_congr (hV _ (.inl (Layout.mem_slots.mp hp).1)).2
  refine ⟨h.root.congr hV fun p b s hp => hp.congr fun c hc => hV c (mem_allOf_of_own hc), ?_, ?_⟩
  · exact h.tidy.congr fun p hp => by rw [hentry p hp]
  · intro p hp hlive
    rw [hentry p hp] at hlive ⊢
    exact h.noDots p hp hlive

/-- A root directory of files without data. -/
theorem of_empty_files (hl : L.Chain V L.rootCluster l) (htidy : V.Tidy (L.slots l))
    (hdot : ∀ p ∈ L.slots l, (V.entry p).isLive = true → (V.entry p).isDot = false)
    (hempty : ∀ p ∈ L.slots l, (V.entry p).isLive = true →
      (V.entry p).isDir = false ∧ isLink (V.entry p).cluster = false) :
    L.Sound V k l fun _ => ∅ := by
  refine ⟨⟨hl, ?_, fun _ _ => rfl, fun _ _ _ => Set.notMem_empty _, fun _ _ _ => ?_⟩, htidy, hdot⟩
  · intro p hp howner
    have hlive : (V.entry p).isLive = true := by
      simp only [Entry.isOwner, Bool.and_eq_true] at howner
      exact howner.1
    obtain ⟨hdir, hno⟩ := hempty p (Volume.mem_of_active hp) hlive
    rw [hdir, Owns.file_iff]
    exact ⟨[], .of_not_link hno, by simp⟩
  · exact Set.disjoint_empty _

/-- One slot of the root directory gets another entry, with clusters that no one else owns. -/
theorem replace (h : L.Sound V k l own) {t : Slot} {M : Set ℕ} (hl : ∀ c ∈ l, V'.fat c = V.fat c)
    (hentry : ∀ q ∈ L.slots l, q ≠ t → V'.entry q = V.entry q)
    (hown : ∀ q ≠ t, ∀ c ∈ own q, V'.fat c = V.fat c ∧ V'.data c = V.data c)
    (htidy : V'.Tidy (L.slots l))
    (hnew : t ∈ V'.active (L.slots l) → (V'.entry t).isOwner = true →
      L.Owns V' k (V'.entry t).isDir (V'.entry t).cluster M)
    (hnone : ¬ (t ∈ V'.active (L.slots l) ∧ (V'.entry t).isOwner = true) → M = ∅)
    (hdot : (V'.entry t).isLive = true → (V'.entry t).isDot = false)
    (hapart : ∀ c ∈ l, c ∉ M) (hdisj : ∀ q ≠ t, Disjoint M (own q)) :
    L.Sound V' k l (Function.update own t M) := by
  refine ⟨?_, htidy, ?_⟩
  · exact h.root.replace h.tidy hl hentry htidy (fun q hq b s hs => hs.congr (hown q hq)) hnew hnone
      hapart hdisj
  · intro q hq hlive
    by_cases hqt : q = t
    · subst hqt
      exact hdot hlive
    · rw [hentry q hq hqt] at hlive ⊢
      exact h.noDots q hq hlive

end Layout.Sound

namespace Layout

variable {L : Layout} {V V' : Volume} {c : ℕ} {l : List ℕ} {p : Slot}

theorem slots_nodup (hl : l.Nodup) : (L.slots l).Nodup := by
  have hsector (c s : ℕ) : (sectorSlots c s).Nodup :=
    List.nodup_range.map fun j k hjk => (Slot.mk.inj hjk).2.2
  have hcluster (c : ℕ) : (L.clusterSlots c).Nodup := by
    refine List.nodup_flatMap.mpr ⟨fun s _ => hsector c s, ?_⟩
    refine List.nodup_range.imp fun hne q hq hq' => hne ?_
    obtain ⟨j, -, rfl⟩ := List.mem_map.mp hq
    obtain ⟨j', -, he⟩ := List.mem_map.mp hq'
    exact (Slot.mk.inj he).2.1.symm
  refine List.nodup_flatMap.mpr ⟨fun c _ => hcluster c, ?_⟩
  refine hl.imp fun hne q hq hq' => hne ?_
  obtain ⟨s, -, hs⟩ := List.mem_flatMap.mp hq
  obtain ⟨s', -, hs'⟩ := List.mem_flatMap.mp hq'
  obtain ⟨j, -, rfl⟩ := List.mem_map.mp hs
  obtain ⟨j', -, he⟩ := List.mem_map.mp hs'
  exact (Slot.mk.inj he).1.symm

/-- The slots of a directory start with those of its first sector. -/
theorem slots_first (c : ℕ) (l : List ℕ) : ∃ rest, L.slots (c :: l) = sectorSlots c 0 ++ rest := by
  obtain ⟨m, hm⟩ : ∃ m, L.sectorsPerCluster = m + 1 :=
    Nat.exists_eq_succ_of_ne_zero L.sectors_pos.ne'
  rw [slots_cons, clusterSlots, hm, List.range_succ_eq_map, List.flatMap_cons, List.append_assoc]
  exact ⟨_, rfl⟩

/-- The slot written to is the free one or lies before it. -/
theorem target_split (hl : L.Chain V c l) (hp : V.freeSlot (L.slots l) = some p) :
    ∃ pre post, L.slots l = pre ++ p :: post ∧ (∀ q ∈ pre, (V.entry q).isFree = false) ∧
      (p.target c = p ∨ p.target c ∈ pre) := by
  have hmem := (Volume.freeSlot_spec hp).1
  have hk := (mem_slots.mp hmem).2.2
  cases l with
  | nil => cases hmem
  | cons a l =>
    obtain ⟨rfl, -⟩ := Chain.cons_iff.mp hl
    obtain ⟨rest, hrest⟩ := L.slots_first c l
    have htarget : p.target c ∈ sectorSlots c 0 :=
      List.mem_map.mpr ⟨p.index, List.mem_range.mpr hk, rfl⟩
    rw [Volume.freeSlot, hrest, List.find?_append] at hp
    cases hfirst : (sectorSlots c 0).find? fun q => (V.entry q).isFree with
    | some q =>
      rw [hfirst] at hp
      obtain rfl : q = p := Option.some.inj hp
      obtain ⟨-, pre, post, hsplit, hpre⟩ := List.find?_eq_some_iff_append.mp hfirst
      obtain ⟨j, -, rfl⟩ := List.mem_map.mp (List.mem_of_find?_eq_some hfirst)
      refine ⟨pre, post ++ rest, ?_, fun q hq => by simpa using hpre q hq, .inl rfl⟩
      rw [hrest, hsplit, List.append_assoc, List.cons_append]
    | none =>
      rw [hfirst, Option.none_or] at hp
      obtain ⟨-, pre, post, hsplit, hpre⟩ := List.find?_eq_some_iff_append.mp hp
      refine ⟨sectorSlots c 0 ++ pre, post, ?_, ?_, .inr (List.mem_append_left _ htarget)⟩
      · rw [hrest, hsplit, List.append_assoc]
      · intro q hq
        rcases List.mem_append.mp hq with hq | hq
        · simpa using List.find?_eq_none.mp hfirst q hq
        · simpa using hpre q hq

end Layout

/-- An entry put where the free slot is or before it leaves a directory tidy. -/
theorem Volume.Tidy.put {V V' : Volume} {pre post : List Slot} {p t : Slot}
    (h : V.Tidy (pre ++ p :: post)) (hnd : (pre ++ p :: post).Nodup)
    (hpre : ∀ q ∈ pre, (V.entry q).isFree = false) (ht : t = p ∨ t ∈ pre)
    (hend : (V'.entry t).isEnd = false)
    (hentry : ∀ q ∈ pre ++ p :: post, q ≠ t → (V'.entry q).isEnd = (V.entry q).isEnd) :
    V'.Tidy (pre ++ p :: post) := by
  have hnot (e : Entry) (he : e.isFree = false) : e.isEnd = false := by
    simp only [Entry.isFree, Bool.or_eq_false_iff] at he
    exact he.1
  have hdrop {W : Volume} (hW : ∀ q ∈ pre, (W.entry q).isEnd = false) (ps : List Slot) :
      ((pre ++ ps).dropWhile fun q => !(W.entry q).isEnd) =
        ps.dropWhile fun q => !(W.entry q).isEnd := by
    rw [List.dropWhile_append_of_pos]
    intro q hq
    simp [hW q hq]
  have hpre' (q : Slot) (hq : q ∈ pre) : (V'.entry q).isEnd = false := by
    by_cases hqt : q = t
    · rw [hqt, hend]
    · rw [hentry q (List.mem_append_left _ hq) hqt, hnot _ (hpre q hq)]
  have hpost (q : Slot) (hq : q ∈ post) : (V'.entry q).isEnd = (V.entry q).isEnd := by
    refine hentry q (by simp [hq]) ?_
    rintro rfl
    obtain ⟨-, hcons, hcross⟩ := List.nodup_append.mp hnd
    rcases ht with rfl | ht
    · exact (List.nodup_cons.mp hcons).1 hq
    · exact hcross q ht q (by simp [hq]) rfl
  unfold Volume.Tidy at h ⊢
  rw [hdrop fun q hq => hnot _ (hpre q hq)] at h
  rw [hdrop hpre']
  -- what follows the free slot is tidy in `V`
  have htail : V.Tidy post := by
    rw [List.dropWhile_cons] at h
    split at h
    · exact h
    · intro q hq
      exact h q (List.mem_cons_of_mem _ ((List.dropWhile_suffix _).subset hq))
  by_cases htp : t = p
  · subst htp
    rw [List.dropWhile_cons, if_pos (by simp [hend])]
    exact htail.congr hpost
  · have hsame : V.Tidy (p :: post) := h
    refine hsame.congr fun q hq => ?_
    rcases List.mem_cons.mp hq with rfl | hq
    · exact hentry q (by simp) (Ne.symm htp)
    · exact hpost q hq

end Mukrn.Fat32
