import Mukrn.Fat32.Write

/-! A write request that succeeds. It is meant to change one file of the root directory. -/
namespace Mukrn.Fat32
open ByteMemory

/-- No two live entries have one name. -/
def Volume.Unique (V : Volume) (ps : List Slot) : Prop :=
  ∀ p ∈ ps, ∀ q ∈ ps, (V.entry p).isLive = true → (V.entry q).isLive = true →
    (V.entry p).name = (V.entry q).name → p = q

/-- A disk with a volume in order: the root directory has the chain `l`, and its slots own the
clusters `own`. -/
structure Layout.Consistent (L : Layout) (S : ℕ → Sector) (k : ℕ) (l : List ℕ)
    (own : Slot → Set ℕ) : Prop where
  bounded : L.Bounded S
  sound : L.Sound (L.view S) k l own
  unique : (L.view S).Unique (L.slots l)

/-- A read request for the path sends these bytes. -/
def Sends {δ : Type} (dev : Device δ) (s : Server δ) (path bytes : List UInt8) : Prop :=
  ∃ msgs, serveRead dev s.geo s.disk path = some (msgs ++ [⟨101, []⟩]) ∧
    (∀ m ∈ msgs, m.type = 100) ∧ payload msgs = bytes

/-- All other names of the root directory lead to the same file with the same bytes. -/
def OthersKept {δ : Type} (dev : Device δ) (s s' : Server δ) (name : List UInt8) : Prop :=
  ∀ m : List UInt8, m.length = 11 → m ≠ name →
    findInDir dev s'.geo s'.disk s'.geo.rootCluster m =
      findInDir dev s.geo s.disk s.geo.rootCluster m ∧
    ∀ cluster size, findInDir dev s.geo s.disk s.geo.rootCluster m = some (some (cluster, size)) →
      sendLoop dev s'.geo s'.disk size maxSteps cluster 0 =
        sendLoop dev s.geo s.disk size maxSteps cluster 0

/-- A new name whose entry does not lead to its data, or takes the place of another one: it reads as
deleted, the free slot is not in the first sector and the slot with its index there is in use, or
the number of the cluster needs more than 16 bits. -/
def Misplaced (L : Layout) (V : Volume) (l : List ℕ) (path : List UInt8) (len : ℕ) : Prop :=
  V.find (to83 path) (L.slots l) = none ∧ (0 < len → V.firstFree L ≠ none) ∧
  ∃ p, V.freeSlot (L.slots l) = some p ∧
    ((to83 path).getD 0 0 = 0xE5 ∨ (V.entry (p.target L.rootCluster)).isLive = true ∨
      0 < len ∧ ∃ c, V.firstFree L = some c ∧ 2 ^ 16 ≤ c)

namespace Layout.Sound

variable {L : Layout} {V V' V₁ : Volume} {k len start : ℕ} {l lp lnew : List ℕ}
  {own : Slot → Set ℕ} {p q : Slot} {name m : List UInt8} {data : ℕ → UInt8}

theorem oneInSector (hu : V.Unique (L.slots l)) : V.OneInSector name (L.slots l) := by
  intro p hp j hkj hj
  have hmem := Volume.find_mem hp
  obtain ⟨hc, hs, -⟩ := Layout.mem_slots.mp hmem
  by_contra hnamed
  rw [Bool.not_eq_false] at hnamed
  obtain ⟨hlive, hname⟩ := live_of_named (Volume.find_spec hp).2
  obtain ⟨hlive', hname'⟩ := live_of_named hnamed
  have heq := hu p hmem ⟨p.cluster, p.sector, j⟩ (Layout.mem_slots.mpr ⟨hc, hs, hj⟩) hlive hlive'
    (hname.trans hname'.symm)
  have hj' : p.index = j := congrArg Slot.index heq
  omega

/-- A name that leads nowhere has no live entry. -/
theorem not_named (h : V.Tidy (L.slots l)) (hn : V.find name (L.slots l) = none)
    (hq : q ∈ L.slots l) : (V.entry q).isNamed name = false := by
  rw [h.find_eq] at hn
  simpa using List.find?_eq_none.mp hn q hq

/-- A name with a single entry leads to it. -/
theorem find_of_only (h : V.Tidy (L.slots l)) (hq : q ∈ L.slots l)
    (hnamed : (V.entry q).isNamed name = true)
    (honly : ∀ r ∈ L.slots l, (V.entry r).isNamed name = true → r = q) :
    V.find name (L.slots l) = some q := by
  rw [h.find_eq]
  cases hf : (L.slots l).find? fun r => (V.entry r).isNamed name with
  | none => exact absurd hnamed (List.find?_eq_none.mp hf q hq)
  | some r =>
    have hr := List.find?_some (p := fun r => (V.entry r).isNamed name) hf
    rw [honly r (List.mem_of_find?_eq_some hf) hr]

end Layout.Sound

section Volumes

variable {L : Layout} {V V₁ : Volume} {k len start c : ℕ} {l lp lnew : List ℕ}
  {own : Slot → Set ℕ} {p q : Slot} {name : List UInt8} {data : ℕ → UInt8}

theorem entry_overwritten (V₁ : Volume) (p : Slot) (lp : List ℕ) (start len : ℕ) (q : Slot) :
    (V₁.overwritten p lp start len).entry q =
      if q = p then { V₁.entry p with cluster := start % 2 ^ 32, size := len % 2 ^ 32 }
      else V₁.entry q := by
  have hsec : V₁.sectorOf p = (V₁.free lp).sectorOf p := rfl
  rw [Volume.overwritten, hsec, Volume.entry_setSlot fun j hj => readEntry_patch_of_ne hj ..,
    readEntry_patch]
  rfl

theorem entry_added (V₁ : Volume) (t : Slot) (e : Mem) (q : Slot) :
    (V₁.added t e).entry q = if q = t then readEntry e 0 else V₁.entry q := by
  rw [Volume.added, Volume.entry_setSlot fun j hj => readEntry_fill_of_ne hj .., readEntry_fill]

theorem data_setSlot_of_ne (V₁ : Volume) (p : Slot) (sec : Sector) (hc : c ≠ p.cluster) :
    (V₁.setSlot p sec).data c = V₁.data c := by
  funext s
  simp [Volume.setSlot, hc]

/-- The new data is in its chain, whatever happens to the root directory. -/
theorem Stored.data_eq (hs : Stored L V data len start lnew V₁) (hlen : 0 < len) :
    L.IsCluster start ∧ V₁.data start 0 = dataSector data 0 len := by
  cases hs with
  | none => cases hlen
  | some _ hf => exact ⟨(Volume.firstFree_spec hf).1, by simp [Volume.stored]⟩

theorem Stored.firstFree (hs : Stored L V data len start lnew V₁) (hlen : 0 < len) :
    V.firstFree L = Option.some start := by
  cases hs with
  | none => cases hlen
  | some _ hf => exact hf

theorem Stored.start_mem (hs : Stored L V data len start lnew V₁) (hlen : 0 < len) :
    start ∈ lnew := by
  cases hs with
  | none => cases hlen
  | some => exact List.mem_singleton_self _

theorem Stored.start_free (hs : Stored L V data len start lnew V₁) (hlen : 0 < len) :
    V.fat start = 0 := (Volume.firstFree_spec (hs.firstFree hlen)).2

theorem mem_slots_target (hl : L.Chain V L.rootCluster l) (hp : V.freeSlot (L.slots l) = some p) :
    p.target L.rootCluster ∈ L.slots l := by
  obtain ⟨pre, post, hsplit, -, ht⟩ := Layout.target_split hl hp
  rw [hsplit]
  rcases ht with ht | ht
  · simp [ht]
  · exact List.mem_append_left _ ht

/-- A new entry leaves the root directory tidy. -/
theorem tidy_added (hS : L.Sound V k l own) (hx : V.Extends V₁)
    (hp : V.freeSlot (L.slots l) = some p) {e : Mem} (he : (readEntry e 0).isEnd = false) :
    (V₁.added (p.target L.rootCluster) e).Tidy (L.slots l) := by
  obtain ⟨pre, post, hsplit, hpre, ht⟩ := Layout.target_split hS.root.chain hp
  have hnd := Layout.slots_nodup (L := L) hS.root.chain.nodup
  have htidy := hS.tidy
  have hmem (q : Slot) (hq : q ∈ pre ++ p :: post) : q ∈ L.slots l := hsplit ▸ hq
  rw [hsplit] at hnd htidy ⊢
  apply htidy.put hnd hpre ht
  · rw [entry_added, if_pos rfl, he]
  · intro q hq hqt
    rw [entry_added, if_neg hqt, hx.entry_eq hS.root.chain (hmem q hq)]

end Volumes

section Reads

variable {δ : Type} (D : ReliableDisk δ) {L : Layout} {S₀ S₀' : ℕ → Sector} {V V' : Volume}
  {s s' : Server δ} {l : List ℕ} {path name : List UInt8} {p : Slot}

theorem serveRead_found (hgeo : s.geo = L.toGeometry) (h : L.Holds S₀ (D.sectors s.disk) V)
    (hl : L.Chain V L.rootCluster l) (hroot : 47 ∉ path)
    (hp : V.find (to83 path) (L.slots l) = some p) :
    serveRead D.toDevice s.geo s.disk path =
      sendLoop D.toDevice L.toGeometry s.disk (V.entry p).size maxSteps (V.entry p).cluster 0 := by
  have hfind := findInDir_eq D h hl (to83_length path)
  rw [hp, Option.map_some] at hfind
  have hresolve : resolvePath D.toDevice L.toGeometry s.disk path =
      some (some ((V.entry p).cluster, (V.entry p).size)) := by
    rw [resolvePath, pathTail_eq_none hroot]
    exact hfind
  rw [hgeo, serveRead, hresolve, Option.bind_eq_bind, Option.bind_some]

theorem serveRead_missing (hgeo : s.geo = L.toGeometry) (h : L.Holds S₀ (D.sectors s.disk) V)
    (hl : L.Chain V L.rootCluster l) (hroot : 47 ∉ path)
    (hp : V.find (to83 path) (L.slots l) = none) :
    serveRead D.toDevice s.geo s.disk path = some refused := by
  have hfind := findInDir_eq D h hl (to83_length path)
  simp only [serveRead, resolvePath, pathTail_eq_none hroot, hgeo, hfind, hp, Option.map_none,
    Option.bind_eq_bind, Option.bind_some]

/-- The bytes of a file that fits a sector. -/
theorem sends_small (hgeo : s.geo = L.toGeometry) (h : L.Holds S₀ (D.sectors s.disk) V)
    (hl : L.Chain V L.rootCluster l) (hroot : 47 ∉ path)
    (hp : V.find (to83 path) (L.slots l) = some p) (hc : L.IsCluster (V.entry p).cluster)
    (hpos : 0 < (V.entry p).size) (hle : (V.entry p).size ≤ 512) (bytes : List UInt8) :
    Sends D.toDevice s path bytes ↔
      bytes = (List.range (V.entry p).size).map (V.data (V.entry p).cluster 0) := by
  have hread := serveRead_found D hgeo h hl hroot hp
  rw [sendLoop_small D h hc hpos hle] at hread
  obtain ⟨htype, hpay⟩ := chunks_payload (V.data (V.entry p).cluster 0) (n := (V.entry p).size)
    0 (Nat.zero_mod _) (Nat.le_refl 0) (hle.trans (Nat.le_add_left _ _)) (Nat.le_refl _)
  simp only [Nat.sub_zero, ← List.range_eq_range'] at hpay
  constructor
  · rintro ⟨msgs, hmsgs, -, hbytes⟩
    rw [hread] at hmsgs
    rw [← hbytes, ← List.append_cancel_right (Option.some.inj hmsgs), hpay]
  · rintro rfl
    exact ⟨_, hread, htype, hpay⟩

theorem sends_empty (hgeo : s.geo = L.toGeometry) (h : L.Holds S₀ (D.sectors s.disk) V)
    (hl : L.Chain V L.rootCluster l) (hroot : 47 ∉ path)
    (hp : V.find (to83 path) (L.slots l) = some p)
    (hno : (V.entry p).size = 0 ∨ isLink (V.entry p).cluster = false) (bytes : List UInt8) :
    Sends D.toDevice s path bytes ↔ bytes = [] := by
  have hread := serveRead_found D hgeo h hl hroot hp
  rw [sendLoop_empty _ _ _ hno] at hread
  constructor
  · rintro ⟨msgs, hmsgs, -, hbytes⟩
    rw [hread] at hmsgs
    have hnil : [] = msgs := List.append_cancel_right (Option.some.inj hmsgs)
    rw [← hbytes, ← hnil]
    rfl
  · rintro rfl
    exact ⟨[], hread, fun m hm => (by cases hm), rfl⟩

/-- Names that lead to the same entries with untouched chains. -/
theorem othersKept_of (hgeo : s.geo = L.toGeometry) (hgeo' : s'.geo = L.toGeometry)
    (h : L.Holds S₀ (D.sectors s.disk) V) (h' : L.Holds S₀' (D.sectors s'.disk) V')
    (hl : L.Chain V L.rootCluster l) (hl' : L.Chain V' L.rootCluster l)
    (hfind : ∀ m : List UInt8, m.length = 11 → m ≠ name →
      V'.find m (L.slots l) = V.find m (L.slots l))
    (hsame : ∀ (m : List UInt8) q, m ≠ name → V.find m (L.slots l) = some q →
      V'.entry q = V.entry q ∧ ∃ lq, L.Chain V (V.entry q).cluster lq ∧
        ∀ a ∈ lq, V'.fat a = V.fat a ∧ V'.data a = V.data a) :
    OthersKept D.toDevice s s' name := by
  intro m hm hne
  rw [hgeo, hgeo', findInDir_eq D h hl hm, findInDir_eq D h' hl' hm, hfind m hm hne]
  cases hq : V.find m (L.slots l) with
  | none =>
    rw [Option.map_none, Option.map_none]
    refine ⟨rfl, fun cluster size heq => ?_⟩
    have hno : (none : Option (ℕ × ℕ)) = some (cluster, size) := Option.some.inj heq
    exact absurd hno.symm (Option.some_ne_none _)
  | some q =>
    obtain ⟨hentry, lq, hlq, hV⟩ := hsame m q hne hq
    rw [Option.map_some, Option.map_some, hentry]
    refine ⟨rfl, fun cluster size heq => ?_⟩
    obtain ⟨rfl, rfl⟩ := Prod.mk.inj (Option.some.inj (Option.some.inj heq))
    exact (sendLoop_congr D h h' hlq hV hlq.length_lt 0).1

end Reads

section Overwritten

variable {L : Layout} {V V₁ : Volume} {k len start c : ℕ} {l lp lnew : List ℕ}
  {own : Slot → Set ℕ} {p q : Slot} {name : List UInt8} {data : ℕ → UInt8}

theorem mem_own_of_chain (hS : L.Sound V k l own) (hp : V.find name (L.slots l) = some p)
    (hlp : L.Chain V (V.entry p).cluster lp) (hc : c ∈ lp) : c ∈ own p := by
  obtain ⟨lp', hlp', hown⟩ := hS.chain_of_find hp
  rw [hlp.unique hlp'] at hc
  exact hown c hc

/-- The clusters of the root directory and of all other entries stay as they are. -/
theorem overwritten_fat (hS : L.Sound V k l own) (hx : V.Extends V₁)
    (hp : V.find name (L.slots l) = some p) (hlp : L.Chain V (V.entry p).cluster lp) (hc : c ∈ l) :
    (V₁.overwritten p lp start len).fat c = V.fat c := by
  have hout : c ∉ lp := fun hm => hS.root.apart p c hc (mem_own_of_chain hS hp hlp hm)
  simp only [Volume.overwritten, Volume.setSlot_fat, Volume.free_fat, if_neg hout]
  exact (hx c (hS.root.chain.used c hc).2).1

theorem overwritten_agree (hS : L.Sound V k l own) (hx : V.Extends V₁)
    (hp : V.find name (L.slots l) = some p) (hlp : L.Chain V (V.entry p).cluster lp) (hqp : q ≠ p)
    (hc : c ∈ own q) :
    (V₁.overwritten p lp start len).fat c = V.fat c ∧
      (V₁.overwritten p lp start len).data c = V.data c := by
  have hused := (hS.owns.used c (Layout.Sound.mem_allOf_of_own hc)).2
  have hout : c ∉ lp := fun hm =>
    Set.disjoint_left.mp (hS.root.disjoint q p hqp) hc (mem_own_of_chain hS hp hlp hm)
  have hne : c ≠ p.cluster := by
    rintro rfl
    exact hS.root.apart q _ (Layout.mem_slots.mp (Volume.find_mem hp)).1 hc
  constructor
  · simp only [Volume.overwritten, Volume.setSlot_fat, Volume.free_fat, if_neg hout]
    exact (hx _ hused).1
  · rw [Volume.overwritten, data_setSlot_of_ne _ _ _ hne]
    exact (hx _ hused).2

theorem name_overwritten (hl : L.Chain V c l) (hx : V.Extends V₁) (hp : p ∈ L.slots l)
    (lp : List ℕ) (start len : ℕ) (hq : q ∈ L.slots l) :
    ((V₁.overwritten p lp start len).entry q).name = (V.entry q).name ∧
      ((V₁.overwritten p lp start len).entry q).attr = (V.entry q).attr := by
  rw [entry_overwritten]
  split
  next hqp =>
    rw [hqp, hx.entry_eq hl hp]
    exact ⟨rfl, rfl⟩
  · rw [hx.entry_eq hl hq]
    exact ⟨rfl, rfl⟩

theorem active_overwritten (hl : L.Chain V c l) (hx : V.Extends V₁) (hp : p ∈ L.slots l)
    (lp : List ℕ) (start len : ℕ) :
    (V₁.overwritten p lp start len).active (L.slots l) = V.active (L.slots l) := by
  apply Volume.active_congr
  intro q hq
  rw [Entry.isEnd, Entry.isEnd, Entry.first, Entry.first,
    (name_overwritten hl hx hp lp start len hq).1]

/-- Overwriting an entry changes neither its name nor where names lead. -/
theorem find_overwritten (hl : L.Chain V c l) (hx : V.Extends V₁) (hp : p ∈ L.slots l)
    (lp : List ℕ) (start len : ℕ) (m : List UInt8) :
    (V₁.overwritten p lp start len).find m (L.slots l) = V.find m (L.slots l) := by
  rw [Volume.find, Volume.find, active_overwritten hl hx hp]
  apply List.find?_congr
  intro q hq
  obtain ⟨hname, hattr⟩ := name_overwritten hl hx hp lp start len (Volume.mem_of_active hq)
  rw [Entry.isNamed, Entry.isNamed, Entry.isLive, Entry.isLive, Entry.isFree, Entry.isFree,
    Entry.first, Entry.first, hname, hattr]

end Overwritten

section Added

variable {L : Layout} {V V₁ : Volume} {k len start c : ℕ} {l lnew : List ℕ}
  {own : Slot → Set ℕ} {p q : Slot} {name : List UInt8} {data : ℕ → UInt8} {e : Mem}

theorem added_fat (hS : L.Sound V k l own) (hx : V.Extends V₁) (hc : c ∈ l)
    (t : Slot) : (V₁.added t e).fat c = V.fat c :=
  (hx c (hS.root.chain.used c hc).2).1

theorem added_agree (hS : L.Sound V k l own) (hx : V.Extends V₁)
    (hp : V.freeSlot (L.slots l) = some p) (hc : c ∈ own q) :
    (V₁.added (p.target L.rootCluster) e).fat c = V.fat c ∧
      (V₁.added (p.target L.rootCluster) e).data c = V.data c := by
  have hused := (hS.owns.used c (Layout.Sound.mem_allOf_of_own hc)).2
  have hne : c ≠ (p.target L.rootCluster).cluster := by
    rintro rfl
    exact hS.root.apart q _ (Layout.mem_slots.mp (mem_slots_target hS.root.chain hp)).1 hc
  refine ⟨(hx _ hused).1, ?_⟩
  rw [Volume.added, data_setSlot_of_ne _ _ _ hne]
  exact (hx _ hused).2

theorem entry_added_of_ne (hS : L.Sound V k l own) (hx : V.Extends V₁)
    {t : Slot} (hq : q ∈ L.slots l) (hqt : q ≠ t) : (V₁.added t e).entry q = V.entry q := by
  rw [entry_added, if_neg hqt, hx.entry_eq hS.root.chain hq]

/-- Apart from its own cluster the new data is nowhere. -/
theorem data_added_of_ne (hS : L.Sound V k l own) (hs : Stored L V data len start lnew V₁)
    {t : Slot} (ht : t ∈ L.slots l) (hc : c ≠ start) :
    (V₁.added t e).data c = (V.added t e).data c := by
  have hold : V₁.data c = V.data c := by
    cases hs with
    | none => rfl
    | some =>
      funext s
      simp [Volume.stored, hc]
  have hsec : V₁.sectorOf t = V.sectorOf t := by
    rw [Volume.sectorOf, (hs.agree _ (hS.root.chain.used _ (Layout.mem_slots.mp ht).1).2).2,
      ← Volume.sectorOf]
  funext s
  rw [Volume.added, Volume.added, Volume.setSlot, Volume.setSlot, Volume.setSector_data,
    Volume.setSector_data, hold, hsec]

/-- Without the end mark and the deletion mark as its first byte a new name leads to its entry. -/
theorem find_added (hS : L.Sound V k l own) (hx : V.Extends V₁)
    (hn : V.find name (L.slots l) = none) (hp : V.freeSlot (L.slots l) = some p)
    (he : (readEntry e 0).isEnd = false) (hnamed : (readEntry e 0).isNamed name = true) :
    (V₁.added (p.target L.rootCluster) e).find name (L.slots l) =
    some (p.target L.rootCluster) := by
  apply Layout.Sound.find_of_only (tidy_added hS hx hp he) (mem_slots_target hS.root.chain hp)
  · rw [entry_added, if_pos rfl, hnamed]
  · intro r hr hnamed'
    by_contra hrt
    rw [entry_added_of_ne hS hx hr hrt, Layout.Sound.not_named hS.tidy hn hr] at hnamed'
    cases hnamed'

/-- Names other than that of the new entry lead where they led, unless it took their place. -/
theorem find_added_of_not (hS : L.Sound V k l own) (hx : V.Extends V₁)
    (hp : V.freeSlot (L.slots l) = some p) (he : (readEntry e 0).isEnd = false) {m : List UInt8}
    (hnamed : (readEntry e 0).isNamed m = (V.entry (p.target L.rootCluster)).isNamed m) :
    (V₁.added (p.target L.rootCluster) e).find m (L.slots l) = V.find m (L.slots l) := by
  rw [(tidy_added hS hx hp he).find_eq, hS.tidy.find_eq]
  apply List.find?_congr
  intro q hq
  by_cases hqt : q = p.target L.rootCluster
  · rw [entry_added, if_pos hqt, hqt, hnamed]
  · rw [entry_added_of_ne hS hx hq hqt]

theorem isNamed_fileEntry (hn : name.length = 11) (h0 : name.getD 0 0 ≠ 0) (start len : ℕ)
    (m : List UInt8) :
    (readEntry (fileEntry name start len) 0).isEnd = false ∧
      ((readEntry (fileEntry name start len) 0).isNamed m = true ↔
        name.getD 0 0 ≠ 0xE5 ∧ name = m) := by
  have hattr : ((0x20 : UInt8) &&& 0x08 == 0) = true := by decide
  rw [readEntry_fileEntry hn]
  simp [Entry.isEnd, Entry.isNamed, Entry.isLive, Entry.isFree, Entry.first, hattr] at h0 ⊢
  exact ⟨h0, fun _ _ => h0⟩

end Added

/-- The write request with this path and these contents. -/
def writeRequest (path : List UInt8) (data : ℕ → UInt8) (len : ℕ) : Request where
  type := 2
  data := fun i => if i ≤ path.length then path.getD i 0 else data (i - (path.length + 1))
  length := path.length + 1 + len

theorem writeRequest_spec {path : List UInt8} {len : ℕ} (data : ℕ → UInt8) (hroot : 47 ∉ path)
    (h0 : 0 ∉ path) (hlen : path.length + 1 + len ≤ 64) :
    IsWrite (writeRequest path data len) path len ∧
      ∀ i < len, (writeRequest path data len).contents path i = data i := by
  have hbyte (i : ℕ) (hi : i < path.length) :
      (writeRequest path data len).byte i = path.getD i 0 := by
    rw [Request.byte, if_pos (by omega)]
    exact if_pos hi.le
  have hzero : (writeRequest path data len).byte path.length = 0 := by
    rw [Request.byte, if_pos (by omega)]
    simp [writeRequest]
  have hpath : (writeRequest path data len).path = path := by
    obtain ⟨m, hm⟩ : ∃ m, 72 = path.length + (m + 1) := ⟨71 - path.length, by omega⟩
    have hhead : (List.range path.length).map (writeRequest path data len).byte = path := by
      apply List.ext_getElem
      · simp
      · intro i hi₁ hi₂
        rw [List.getElem_map, List.getElem_range, hbyte i hi₂]
        simp [hi₂]
    rw [Request.path, hm, List.range_add, List.map_append, hhead, List.range_succ_eq_map,
      List.map_cons, List.map_cons, Nat.add_zero, hzero, List.takeWhile_append_of_pos]
    · simp
    · intro b hb
      have hne : b ≠ 0 := fun he => h0 (he ▸ hb)
      simp [hne]
  refine ⟨⟨rfl, hpath, hroot, rfl, hlen⟩, fun i hi => ?_⟩
  rw [Request.contents, Request.byte, if_pos (by omega)]
  simp only [writeRequest]
  rw [if_neg (by omega)]
  congr 1
  omega

section Main

variable {δ : Type} {D : ReliableDisk δ} {L : Layout} {s : Server δ} {k len : ℕ} {l : List ℕ}
  {own : Slot → Set ℕ} {path : List UInt8} {data : ℕ → UInt8} {d' : δ} {V' V₁ : Volume}

private theorem range_map_dataSector (data : ℕ → UInt8) (len : ℕ) :
    (List.range len).map (dataSector data 0 len) = (List.range len).map data := by
  apply List.map_congr_left
  intro i hi
  rw [dataSector, if_pos (List.mem_range.mp hi), Nat.zero_add]

/-- An entry that leads to the stored data. -/
private theorem sends_stored {V : Volume} {S₀ : ℕ → Sector} {start : ℕ} {lnew : List ℕ} {p : Slot}
    (hgeo : s.geo = L.toGeometry) (hs : Stored L V data len start lnew V₁)
    (h' : L.Holds S₀ (D.sectors d') V') (hl' : L.Chain V' L.rootCluster l) (hroot : 47 ∉ path)
    (hlen : len ≤ 512) (hp : V'.find (to83 path) (L.slots l) = some p)
    (hcluster : 0 < len → (V'.entry p).cluster = start) (hsize : (V'.entry p).size = len)
    (hdata : 0 < len → V'.data start 0 = V₁.data start 0) :
    Sends D.toDevice { s with disk := d' } path ((List.range len).map data) := by
  rcases Nat.eq_zero_or_pos len with h0 | hpos
  · have hempty := sends_empty D (s := { s with disk := d' }) hgeo h' hl' hroot hp
      (.inl (hsize.trans h0))
    rw [hempty, h0]
    rfl
  · obtain ⟨hstart, hsec⟩ := hs.data_eq hpos
    have hsmall := sends_small D (s := { s with disk := d' }) hgeo h' hl' hroot hp
    rw [hsize, hcluster hpos, hdata hpos, hsec, range_map_dataSector] at hsmall
    exact (hsmall hstart hpos hlen _).mpr rfl

/-- An existing file is overwritten in place. -/
private theorem overwritten_one_file {p : Slot} {lp : List ℕ} {start : ℕ} {lnew : List ℕ}
    (hgeo : s.geo = L.toGeometry) (hc : L.Consistent (D.sectors s.disk) k l own) (hroot : 47 ∉ path)
    (hlen : len ≤ 512) (hp : (L.view (D.sectors s.disk)).find (to83 path) (L.slots l) = some p)
    (hlp : L.Chain (L.view (D.sectors s.disk)) ((L.view (D.sectors s.disk)).entry p).cluster lp)
    (hs : Stored L (L.view (D.sectors s.disk)) data len start lnew V₁)
    (h' : L.Holds (D.sectors s.disk) (D.sectors d') (V₁.overwritten p lp start len)) :
    Sends D.toDevice { s with disk := d' } path ((List.range len).map data) ∧
      OthersKept D.toDevice s { s with disk := d' } (to83 path) := by
  have hS := hc.sound
  have hmem := Volume.find_mem hp
  have hl' : L.Chain (V₁.overwritten p lp start len) L.rootCluster l :=
    hS.root.chain.congr fun c hc => overwritten_fat hS hs.agree hp hlp hc
  have hentry : (V₁.overwritten p lp start len).entry p =
      { V₁.entry p with cluster := start, size := len } := by
    have hstart := hs.start_lt
    rw [entry_overwritten, if_pos rfl, Nat.mod_eq_of_lt hstart, Nat.mod_eq_of_lt (by omega)]
  constructor
  · apply sends_stored hgeo hs h' hl' hroot hlen
      ((find_overwritten hS.root.chain hs.agree hmem ..).trans hp)
    · rw [hentry]
      exact fun _ => rfl
    · rw [hentry]
    · intro hpos
      have hne : start ≠ p.cluster := by
        rintro rfl
        have hused := (hS.root.chain.used _ (Layout.mem_slots.mp hmem).1).2
        exact hused (hs.start_free hpos)
      rw [Volume.overwritten, data_setSlot_of_ne _ _ _ hne]
      rfl
  · refine othersKept_of D hgeo hgeo (.refl _) h' hS.root.chain hl' ?_ ?_
    · intro m _ _
      exact find_overwritten hS.root.chain hs.agree hmem lp start len m
    · intro m q hne hq
      have hqp : q ≠ p := by
        rintro rfl
        have h₁ := (Layout.Sound.live_of_named (Volume.find_spec hq).2).2
        have h₂ := (Layout.Sound.live_of_named (Volume.find_spec hp).2).2
        exact hne (h₁.symm.trans h₂)
      obtain ⟨lq, hlq, hown⟩ := hS.chain_of_find hq
      refine ⟨?_, lq, hlq, fun a ha => overwritten_agree hS hs.agree hp hlp hqp (hown a ha)⟩
      rw [entry_overwritten, if_neg hqp, hs.agree.entry_eq hS.root.chain (Volume.find_mem hq)]

/-- A new entry that is in its place and leads to its data. -/
private theorem added_one_file {p : Slot} {start : ℕ} {lnew : List ℕ} (hgeo : s.geo = L.toGeometry)
    (hc : L.Consistent (D.sectors s.disk) k l own) (hroot : 47 ∉ path) (h0 : 0 ∉ path)
    (hlen : len ≤ 512) (hn : (L.view (D.sectors s.disk)).find (to83 path) (L.slots l) = none)
    (hp : (L.view (D.sectors s.disk)).freeSlot (L.slots l) = some p)
    (hs : Stored L (L.view (D.sectors s.disk)) data len start lnew V₁)
    (h' : L.Holds (D.sectors s.disk) (D.sectors d')
      (V₁.added (p.target L.rootCluster) (fileEntry (to83 path) start len)))
    (hfirst : (to83 path).getD 0 0 ≠ 0xE5)
    (hlive : ((L.view (D.sectors s.disk)).entry (p.target L.rootCluster)).isLive = false)
    (hstart : 0 < len → start < 2 ^ 16) :
    Sends D.toDevice { s with disk := d' } path ((List.range len).map data) ∧
      OthersKept D.toDevice s { s with disk := d' } (to83 path) := by
  have hS := hc.sound
  have hname := to83_length path
  have hmem := mem_slots_target hS.root.chain hp
  have hend := (isNamed_fileEntry hname (to83_first h0).2 start len []).1
  have hnamed (m : List UInt8) := (isNamed_fileEntry hname (to83_first h0).2 start len m).2
  have hfind := find_added hS hs.agree hn hp hend ((hnamed _).mpr ⟨hfirst, rfl⟩)
  have hl' : L.Chain (V₁.added (p.target L.rootCluster) (fileEntry (to83 path) start len))
      L.rootCluster l := hS.root.chain.congr fun c hc => added_fat hS hs.agree hc _
  have hentry : (V₁.added (p.target L.rootCluster) (fileEntry (to83 path) start len)).entry
      (p.target L.rootCluster) = ⟨to83 path, 0x20, start % 2 ^ 16, len⟩ := by
    rw [entry_added, if_pos rfl, readEntry_fileEntry hname, Nat.mod_eq_of_lt (a := len) (by omega)]
  constructor
  · apply sends_stored hgeo hs h' hl' hroot hlen hfind
    · intro hpos
      rw [hentry]
      exact Nat.mod_eq_of_lt (hstart hpos)
    · rw [hentry]
    · intro hpos
      have hne : start ≠ (p.target L.rootCluster).cluster := by
        rintro heq
        exact (hS.root.chain.used _ (Layout.mem_slots.mp hmem).1).2 (heq ▸ hs.start_free hpos)
      rw [Volume.added, data_setSlot_of_ne _ _ _ hne]
  · refine othersKept_of D hgeo hgeo (.refl _) h' hS.root.chain hl' ?_ ?_
    · intro m _ hne
      apply find_added_of_not hS hs.agree hp hend
      have hold : ((L.view (D.sectors s.disk)).entry (p.target L.rootCluster)).isNamed m =
        false := by
        simp [Entry.isNamed, hlive]
      rw [hold, Bool.eq_false_iff]
      exact fun hm => hne ((hnamed m).mp hm).2.symm
    · intro m q hne hq
      obtain ⟨lq, hlq, hown⟩ := hS.chain_of_find hq
      refine ⟨?_, lq, hlq, fun a ha => added_agree hS hs.agree hp (hown a ha)⟩
      apply entry_added_of_ne hS hs.agree (Volume.find_mem hq)
      rintro rfl
      rw [(Layout.Sound.live_of_named (Volume.find_spec hq).2).1] at hlive
      cases hlive

/-- With room for the data and the entry a new name is added. -/
theorem WriteEffect.isAdded {V : Volume} {name : List UInt8} {p : Slot} {b : Bool}
    (h : WriteEffect L V l name data len b V') (hn : V.find name (L.slots l) = none)
    (hroom : 0 < len → V.firstFree L ≠ none) (hp : V.freeSlot (L.slots l) = some p) :
    b = true ∧ ∃ start lnew V₁, Stored L V data len start lnew V₁ ∧
      V' = V₁.added (p.target L.rootCluster) (fileEntry name start len) := by
  cases h with
  | noSpace hlen hf => exact absurd hf (hroom hlen)
  | refused hq => rw [hn] at hq; cases hq
  | overwritten hq => rw [hn] at hq; cases hq
  | full _ hfull => rw [hp] at hfull; cases hfull
  | @added q start lnew V₁ _ hq hs =>
    rw [hp] at hq
    obtain rfl := Option.some.inj hq
    exact ⟨rfl, start, lnew, V₁, hs, rfl⟩

/-- A name that starts with the deletion mark is not found again. -/
private theorem not_sends_of_marked {p : Slot} {start : ℕ} {lnew : List ℕ}
    (hgeo : s.geo = L.toGeometry) (hc : L.Consistent (D.sectors s.disk) k l own)
    (hroot : 47 ∉ path) (h0 : 0 ∉ path)
    (hn : (L.view (D.sectors s.disk)).find (to83 path) (L.slots l) = none)
    (hp : (L.view (D.sectors s.disk)).freeSlot (L.slots l) = some p)
    (hs : Stored L (L.view (D.sectors s.disk)) data len start lnew V₁)
    (h' : L.Holds (D.sectors s.disk) (D.sectors d')
      (V₁.added (p.target L.rootCluster) (fileEntry (to83 path) start len)))
    (hfirst : (to83 path).getD 0 0 = 0xE5) (bytes : List UInt8) :
    ¬ Sends D.toDevice { s with disk := d' } path bytes := by
  have hS := hc.sound
  obtain ⟨hend, hnamed⟩ := isNamed_fileEntry (to83_length path) (to83_first h0).2 start len
    (to83 path)
  have hold := Layout.Sound.not_named hS.tidy hn (mem_slots_target hS.root.chain hp)
  have hfind := find_added_of_not hS hs.agree hp hend (m := to83 path) (by
    rw [hold, Bool.eq_false_iff]
    exact fun hm => (hnamed.mp hm).1 hfirst)
  have hl' : L.Chain (V₁.added (p.target L.rootCluster) (fileEntry (to83 path) start len))
      L.rootCluster l := hS.root.chain.congr fun c hc => added_fat hS hs.agree hc _
  have hread := serveRead_missing D (s := { s with disk := d' }) hgeo h' hl' hroot
    (hfind.trans hn)
  rintro ⟨msgs, hmsgs, -⟩
  rw [hread] at hmsgs
  have hlast : ([⟨255, []⟩] : List Reply) = msgs ++ [⟨101, []⟩] := Option.some.inj hmsgs
  have hrev := congrArg List.getLast? hlast
  simp at hrev

/-- A live entry that is written over is no longer found. -/
private theorem not_othersKept_of_live {p : Slot} {start : ℕ} {lnew : List ℕ}
    (hgeo : s.geo = L.toGeometry) (hc : L.Consistent (D.sectors s.disk) k l own) (h0 : 0 ∉ path)
    (hn : (L.view (D.sectors s.disk)).find (to83 path) (L.slots l) = none)
    (hp : (L.view (D.sectors s.disk)).freeSlot (L.slots l) = some p)
    (hs : Stored L (L.view (D.sectors s.disk)) data len start lnew V₁)
    (h' : L.Holds (D.sectors s.disk) (D.sectors d')
      (V₁.added (p.target L.rootCluster) (fileEntry (to83 path) start len)))
    (hlive : ((L.view (D.sectors s.disk)).entry (p.target L.rootCluster)).isLive = true) :
    ¬ OthersKept D.toDevice s { s with disk := d' } (to83 path) := by
  have hS := hc.sound
  have hmem := mem_slots_target hS.root.chain hp
  generalize ht : p.target L.rootCluster = t at *
  obtain ⟨m, hm⟩ : ∃ m, m = ((L.view (D.sectors s.disk)).entry t).name := ⟨_, rfl⟩
  have hlen : m.length = 11 := by
    rw [hm]
    simp [Volume.entry, readEntry]
  have hnamed : ((L.view (D.sectors s.disk)).entry t).isNamed m = true := by
    simp [Entry.isNamed, hlive, hm]
  have hne : m ≠ to83 path := by
    rintro rfl
    rw [Layout.Sound.not_named hS.tidy hn hmem] at hnamed
    cases hnamed
  have honly (r : Slot) (hr : r ∈ L.slots l)
      (hrm : ((L.view (D.sectors s.disk)).entry r).isNamed m = true) : r = t := by
    obtain ⟨hrlive, hrname⟩ := Layout.Sound.live_of_named hrm
    exact hc.unique r hr t hmem hrlive hlive (hrname.trans hm)
  obtain ⟨hend, hnew⟩ := isNamed_fileEntry (to83_length path) (to83_first h0).2 start len m
  have htidy := tidy_added hS hs.agree hp hend
  rw [ht] at htidy
  have hgone : (V₁.added t (fileEntry (to83 path) start len)).find m (L.slots l) = none := by
    rw [htidy.find_eq, List.find?_eq_none]
    intro r hr hrm
    by_cases hrt : r = t
    · rw [entry_added, if_pos hrt] at hrm
      exact hne (hnew.mp hrm).2.symm
    · rw [entry_added_of_ne hS hs.agree hr hrt] at hrm
      exact hrt (honly r hr hrm)
  have hl' : L.Chain (V₁.added t (fileEntry (to83 path) start len)) L.rootCluster l :=
    hS.root.chain.congr fun c hc => added_fat hS hs.agree hc _
  intro hkept
  have heq := (hkept m hlen hne).1
  rw [show ({ s with disk := d' } : Server δ).geo = s.geo from rfl, hgeo,
    findInDir_eq D h' hl' hlen, findInDir_eq D (.refl _) hS.root.chain hlen,
    Layout.Sound.find_of_only hS.tidy hmem hnamed honly, hgone, Option.map_none,
    Option.map_some] at heq
  exact Option.some_ne_none _ (Option.some.inj heq).symm

/-- The sector that an entry with a number above 16 bits leads to, before any data is stored. -/
def strayByte (L : Layout) (V : Volume) (p : Slot) (name : List UInt8) (c len : ℕ) : UInt8 :=
  (V.added (p.target L.rootCluster) (fileEntry name c len)).data (c % 2 ^ 16) 0 0

/-- A first cluster that does not fit the low half of its number leads to other data. -/
private theorem not_sends_of_high {p : Slot} {start : ℕ} {lnew : List ℕ}
    (hgeo : s.geo = L.toGeometry) (hc : L.Consistent (D.sectors s.disk) k l own)
    (hroot : 47 ∉ path) (h0 : 0 ∉ path) (hlen : len ≤ 512)
    (hn : (L.view (D.sectors s.disk)).find (to83 path) (L.slots l) = none)
    (hp : (L.view (D.sectors s.disk)).freeSlot (L.slots l) = some p)
    (hs : Stored L (L.view (D.sectors s.disk)) data len start lnew V₁)
    (h' : L.Holds (D.sectors s.disk) (D.sectors d')
      (V₁.added (p.target L.rootCluster) (fileEntry (to83 path) start len)))
    (hfirst : (to83 path).getD 0 0 ≠ 0xE5) (hpos : 0 < len) (hhigh : 2 ^ 16 ≤ start)
    (hdata : data 0 ≠ strayByte L (L.view (D.sectors s.disk)) p (to83 path) start len) :
    ¬ Sends D.toDevice { s with disk := d' } path ((List.range len).map data) := by
  have hS := hc.sound
  have hname := to83_length path
  obtain ⟨hend, hnamed⟩ := isNamed_fileEntry hname (to83_first h0).2 start len (to83 path)
  have hfind := find_added hS hs.agree hn hp hend (hnamed.mpr ⟨hfirst, rfl⟩)
  have hl' : L.Chain (V₁.added (p.target L.rootCluster) (fileEntry (to83 path) start len))
      L.rootCluster l := hS.root.chain.congr fun c hc => added_fat hS hs.agree hc _
  have hentry : (V₁.added (p.target L.rootCluster) (fileEntry (to83 path) start len)).entry
      (p.target L.rootCluster) = ⟨to83 path, 0x20, start % 2 ^ 16, len⟩ := by
    rw [entry_added, if_pos rfl, readEntry_fileEntry hname, Nat.mod_eq_of_lt (a := len) (by omega)]
  obtain ⟨n, rfl⟩ : ∃ n, len = n + 1 := Nat.exists_eq_succ_of_ne_zero hpos.ne'
  by_cases hlink : 2 ≤ start % 2 ^ 16
  · have hcl : L.IsCluster (start % 2 ^ 16) :=
      ⟨hlink, (Nat.mod_le _ _).trans_lt (hs.data_eq hpos).1.2⟩
    have hsmall := sends_small D (s := { s with disk := d' }) hgeo h' hl' hroot hfind
    rw [hentry] at hsmall
    rw [hsmall hcl hpos hlen]
    have hne : start % 2 ^ 16 ≠ start := by omega
    rw [data_added_of_ne hS hs (mem_slots_target hS.root.chain hp) hne, List.range_succ_eq_map,
      List.map_cons, List.map_cons]
    exact fun hbytes => hdata (List.cons.inj hbytes).1
  · have hno : isLink (start % 2 ^ 16) = false := by
      rw [isLink, decide_eq_false hlink, Bool.false_and]
    have hempty := sends_empty D (s := { s with disk := d' }) hgeo h' hl' hroot hfind
      (.inr (by rw [hentry]; exact hno))
    rw [hempty]
    simp

/-- A write request that is answered 200 makes a read of the name send its data and leaves all other
names as they are, unless a new entry is misplaced. -/
theorem write_changes_one_file_iff (spawn : Mem → ℕ → Option ℕ) (hgeo : s.geo = L.toGeometry)
    (hc : L.Consistent (D.sectors s.disk) k l own) (hroot : 47 ∉ path) (h0 : 0 ∉ path)
    (hfits : path.length + 1 + len ≤ 64) :
    (∀ req s', IsWrite req path len →
      serve D.toDevice spawn s req = some (.replied [⟨200, []⟩] s') →
        Sends D.toDevice s' path ((List.range len).map (req.contents path)) ∧
          OthersKept D.toDevice s s' (to83 path)) ↔
      ¬ Misplaced L (L.view (D.sectors s.disk)) l path len := by
  have hlen : len ≤ 512 := by omega
  constructor
  · rintro hall ⟨hn, hroom, p, hp, hbad⟩
    -- data that differs from what a wrong first cluster leads to
    obtain ⟨x, hx⟩ : ∃ x : UInt8, ∀ c, (L.view (D.sectors s.disk)).firstFree L = some c →
        x ≠ strayByte L (L.view (D.sectors s.disk)) p (to83 path) c len := by
      cases hf : (L.view (D.sectors s.disk)).firstFree L with
      | none => exact ⟨0, fun c hc => by cases hc⟩
      | some c =>
        refine ⟨strayByte L (L.view (D.sectors s.disk)) p (to83 path) c len + 1, ?_⟩
        rintro c' heq
        obtain rfl := Option.some.inj heq
        simp
    obtain ⟨hreq, hcontents⟩ := writeRequest_spec (fun _ => x) hroot h0 hfits
    obtain ⟨b, d', V', hres, h', heffect⟩ := serve_write D spawn hgeo hreq (.refl _)
      hc.bounded hc.sound (Layout.Sound.oneInSector hc.unique)
    obtain ⟨rfl, start, lnew, V₁, hs, rfl⟩ := heffect.isAdded hn hroom hp
    obtain ⟨hsends, hkept⟩ := hall _ _ hreq hres
    by_cases hfirst : (to83 path).getD 0 0 = 0xE5
    · exact not_sends_of_marked hgeo hc hroot h0 hn hp hs h' hfirst _ hsends
    rcases hbad with hmark | hlive | ⟨hpos, c, hf, hhigh⟩
    · exact hfirst hmark
    · exact not_othersKept_of_live hgeo hc h0 hn hp hs h' hlive hkept
    · have hstart : (L.view (D.sectors s.disk)).firstFree L = some start := hs.firstFree hpos
      obtain rfl : start = c := Option.some.inj (hstart.symm.trans hf)
      refine not_sends_of_high hgeo hc hroot h0 hlen hn hp hs h' hfirst hpos hhigh ?_ hsends
      rw [hcontents 0 hpos]
      exact hx start hf
  · intro hgood req s' hreq hserve
    obtain ⟨b, d', V', hres, h', heffect⟩ := serve_write D spawn hgeo hreq (.refl _)
      hc.bounded hc.sound (Layout.Sound.oneInSector hc.unique)
    rw [hres] at hserve
    cases heffect with
    | noSpace => cases hserve
    | refused => cases hserve
    | full => cases hserve
    | overwritten hp hlp hend hs =>
      obtain rfl : ({ s with disk := d' } : Server δ) = s' := by
        cases hserve
        rfl
      exact overwritten_one_file hgeo hc hroot hlen hp hlp hs h'
    | added hn hp hs =>
      obtain rfl : ({ s with disk := d' } : Server δ) = s' := by
        cases hserve
        rfl
      have hplace (hbad : (to83 path).getD 0 0 = 0xE5 ∨
          ((L.view (D.sectors s.disk)).entry (Slot.target _ L.rootCluster)).isLive = true ∨
            0 < len ∧ ∃ c, (L.view (D.sectors s.disk)).firstFree L = some c ∧ 2 ^ 16 ≤ c) : False :=
        hgood ⟨hn, fun hpos => by rw [hs.firstFree hpos]; exact Option.some_ne_none _, _, hp, hbad⟩
      apply added_one_file hgeo hc hroot h0 hlen hn hp hs h'
      · exact fun hmark => hplace (.inl hmark)
      · rw [Bool.eq_false_iff]
        exact fun hlive => hplace (.inr (.inl hlive))
      · intro hpos
        by_contra hhigh
        exact hplace (.inr (.inr ⟨hpos, _, hs.firstFree hpos, Nat.not_lt.mp hhigh⟩))

end Main

section Sample

/-- A small volume: two tables of one sector, and clusters of two sectors. -/
def sampleLayout : Layout where
  bytesPerSector := 512
  sectorsPerCluster := 2
  reservedSectors := 1
  numFats := 2
  sectorsPerFat := 1
  rootCluster := 2
  limit := 128
  bytes_eq := rfl
  sectors_pos := by decide
  fats_pos := by decide
  limit_le := by decide
  limit_le_entries := by decide
  entries_le := by decide
  fits := by decide

/-- The first sector of a directory with `n` files without data, called A, B and so on. -/
def filesSector (n : ℕ) : Sector := fun i =>
  if i / 32 < n then
    if i % 32 = 0 then UInt8.ofNat (65 + i / 32)
    else if i % 32 < 11 then 32
    else if i % 32 = 11 then 0x20
    else 0
  else 0

/-- The volume with these files. -/
def sampleServer (n : ℕ) : Server (ℕ → Sector) where
  geo := sampleLayout.toGeometry
  disk := fun lba =>
    if lba = 1 ∨ lba = 2 then store (fun _ => 0) 8 4 eoc
    else if lba = 3 then filesSector n
    else fun _ => 0
  fileBuf := fun _ => 0

def sampleVolume (n : ℕ) : Volume := sampleLayout.view (sampleServer n).disk

theorem sampleVolume_chain (n : ℕ) : sampleLayout.Chain (sampleVolume n) 2 [2] := by
  apply Layout.Chain.single
  · decide
  · have hload : load (store (fun _ => 0) 8 4 eoc) 8 4 % 2 ^ 28 = eoc := by
      rw [load_store]
      decide
    exact hload.ge

/-- The root directory evaluated: its live entries, and that it has none behind the end mark. -/
private theorem sampleVolume_eval : ∀ n : Fin 17,
    (∀ p ∈ sampleLayout.slots [2], ((sampleVolume n).entry p).isLive = true →
      p.cluster = 2 ∧ p.sector = 0 ∧ p.index < 16 ∧
      ((sampleVolume n).entry p).first = UInt8.ofNat (65 + p.index) ∧
      ((sampleVolume n).entry p).isDir = false ∧ ((sampleVolume n).entry p).cluster = 0) ∧
    ∀ p ∈ (sampleLayout.slots [2]).dropWhile fun p => !((sampleVolume n).entry p).isEnd,
      ((sampleVolume n).entry p).isEnd = true := by
  decide +kernel

theorem sampleServer_consistent {n : ℕ} (hn : n ≤ 16) :
    sampleLayout.Consistent (sampleServer n).disk 0 [2] fun _ => ∅ := by
  obtain ⟨hlive, htidy⟩ := sampleVolume_eval ⟨n, by omega⟩
  have hletter : ∀ i < 16, UInt8.ofNat (65 + i) ≠ 46 := by decide
  have hinj : ∀ i < 16, ∀ j < 16, UInt8.ofNat (65 + i) = UInt8.ofNat (65 + j) → i = j := by decide
  refine ⟨fun c h₁ h₂ => absurd (h₁.trans_lt h₂) (lt_irrefl 128), ?_, ?_⟩
  · apply Layout.Sound.of_empty_files (sampleVolume_chain n) htidy
    · intro p hp hp'
      obtain ⟨-, -, hk, hfirst, -⟩ := hlive p hp hp'
      have hne := hletter _ hk
      rw [← hfirst] at hne
      exact beq_eq_false_iff_ne.mpr hne
    · intro p hp hp'
      obtain ⟨-, -, -, -, hdir, hcluster⟩ := hlive p hp hp'
      exact ⟨hdir, congrArg isLink hcluster⟩
  · intro p hp q hq hp' hq' hname
    obtain ⟨hc, hs, hk, hfirst, -⟩ := hlive p hp hp'
    obtain ⟨hc', hs', hk', hfirst', -⟩ := hlive q hq hq'
    have heq : UInt8.ofNat (65 + p.index) = UInt8.ofNat (65 + q.index) := by
      rw [← hfirst, ← hfirst', Entry.first, Entry.first]
      exact congrArg (fun bs => bs.getD 0 0) hname
    have hindex := hinj _ hk _ hk' heq
    obtain ⟨c, s, k⟩ := p
    obtain ⟨c', s', k'⟩ := q
    simp only at hc hs hc' hs' hindex
    rw [hc, hs, hc', hs', hindex]

/-- A new file is written when there is room for it in the first sector. -/
private theorem sample_added {n : ℕ} (hn : n ≤ 16) {path : List UInt8} {p : Slot} {data : ℕ → UInt8}
    (hreq : IsWrite (writeRequest path data 1) path 1)
    (hnone : (sampleVolume n).find (to83 path) (sampleLayout.slots [2]) = none)
    (hslot : (sampleVolume n).freeSlot (sampleLayout.slots [2]) = some p)
    (hfree : (sampleVolume n).firstFree sampleLayout = some 3) :
    ∃ d' lnew V₁, serve arrayDisk.toDevice (fun _ _ => none) (sampleServer n)
        (writeRequest path data 1) =
          some (.replied [⟨200, []⟩] { sampleServer n with disk := d' }) ∧
      Stored sampleLayout (sampleVolume n) ((writeRequest path data 1).contents path) 1 3 lnew V₁ ∧
      sampleLayout.Holds (sampleServer n).disk d'
        (V₁.added (p.target 2) (fileEntry (to83 path) 3 1)) := by
  have hc := sampleServer_consistent hn
  obtain ⟨b, d', V', hres, h', heffect⟩ := serve_write arrayDisk (fun _ _ => none)
    (s := sampleServer n) rfl hreq (.refl _) hc.bounded hc.sound
    (Layout.Sound.oneInSector hc.unique)
  have hroom : (sampleVolume n).firstFree sampleLayout ≠ none := by
    rw [hfree]
    exact Option.some_ne_none _
  obtain ⟨rfl, start, lnew, V₁, hs, rfl⟩ := heffect.isAdded hnone (fun _ => hroom) hslot
  obtain rfl : start = 3 := Option.some.inj ((hs.firstFree Nat.one_pos).symm.trans hfree)
  exact ⟨d', lnew, V₁, hres, hs, h'⟩

/-- The file B next to A. -/
theorem write_changes_one_file_sample :
    ¬ Misplaced sampleLayout (sampleVolume 1) [2] [66] 1 ∧
    ∃ s', serve arrayDisk.toDevice (fun _ _ => none) (sampleServer 1)
        (writeRequest [66] (fun _ => 7) 1) = some (.replied [⟨200, []⟩] s') ∧
      Sends arrayDisk.toDevice s' [66] [7] ∧
      OthersKept arrayDisk.toDevice (sampleServer 1) s' (to83 [66]) := by
  have hslot : (sampleVolume 1).freeSlot (sampleLayout.slots [2]) = some ⟨2, 0, 1⟩ := by
    decide +kernel
  have hfree : (sampleVolume 1).firstFree sampleLayout = some 3 := by decide +kernel
  have hlive : ((sampleVolume 1).entry ⟨2, 0, 1⟩).isLive = false := by decide +kernel
  have hplace : ¬ Misplaced sampleLayout (sampleVolume 1) [2] [66] 1 := by
    rintro ⟨-, -, p, hp, hbad⟩
    obtain rfl := Option.some.inj (hslot.symm.trans hp)
    rcases hbad with hmark | hl | ⟨-, c, hf, hhigh⟩
    · revert hmark
      decide
    · rw [show Slot.target ⟨2, 0, 1⟩ sampleLayout.rootCluster = ⟨2, 0, 1⟩ from rfl, hlive] at hl
      cases hl
    · obtain rfl := Option.some.inj (hfree.symm.trans hf)
      revert hhigh
      decide
  have hreq : IsWrite (writeRequest [66] (fun _ => 7) 1) [66] 1 :=
    (writeRequest_spec _ (by decide) (by decide) (by decide)).1
  obtain ⟨d', -, -, hres, -⟩ := sample_added (n := 1) (by decide) hreq
    (by decide +kernel) hslot hfree
  have hone := (write_changes_one_file_iff (D := arrayDisk) (s := sampleServer 1) (fun _ _ => none)
    rfl (sampleServer_consistent (n := 1) (by decide)) (by decide) (by decide)
    (by decide)).mpr hplace _ _ hreq hres
  have hbytes : (List.range 1).map ((writeRequest [66] (fun _ => 7) 1).contents [66]) = [7] := by
    decide +kernel
  rw [hbytes] at hone
  exact ⟨hplace, _, hres, hone⟩

/-- When the first sector is full, a new file takes the place of another one. -/
theorem write_replaces_other_file :
    sampleLayout.Consistent (sampleServer 16).disk 0 [2] (fun _ => ∅) ∧
    IsWrite (writeRequest [122] (fun _ => 7) 1) [122] 1 ∧
    ∃ s', serve arrayDisk.toDevice (fun _ _ => none) (sampleServer 16)
        (writeRequest [122] (fun _ => 7) 1) = some (.replied [⟨200, []⟩] s') ∧
      ¬ OthersKept arrayDisk.toDevice (sampleServer 16) s' (to83 [122]) := by
  have hc := sampleServer_consistent (n := 16) (by decide)
  have hn : (sampleVolume 16).find (to83 [122]) (sampleLayout.slots [2]) = none := by decide +kernel
  have hslot : (sampleVolume 16).freeSlot (sampleLayout.slots [2]) = some ⟨2, 1, 0⟩ := by
    decide +kernel
  have hlive : ((sampleVolume 16).entry ⟨2, 0, 0⟩).isLive = true := by decide +kernel
  have hreq : IsWrite (writeRequest [122] (fun _ => 7) 1) [122] 1 :=
    (writeRequest_spec _ (by decide) (by decide) (by decide)).1
  obtain ⟨d', lnew, V₁, hres, hs, h'⟩ := sample_added (n := 16) (by decide) hreq hn hslot
    (by decide +kernel)
  exact ⟨hc, hreq, _, hres, not_othersKept_of_live rfl hc (by decide) hn hslot hs h' hlive⟩

end Sample

end Mukrn.Fat32
