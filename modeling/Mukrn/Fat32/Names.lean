import Mukrn.Fat32.Orphans

/-! Names in directories: whether the two ways to look up a path agree, and whether the names in a
directory stay distinct. -/
namespace Mukrn.Fat32
open ByteMemory

section Lookup

variable {δ : Type} (dev : Device δ) (g : Geometry) (d : δ) (path : List UInt8)

/-- How a lookup ends: in a store through a null pointer, or with an entry or none. -/
inductive Lookup where
  | nullStore
  | entry (e : Option (ℕ × ℕ))
  deriving DecidableEq

/-- `resolve_parent`, and then `find_in_dir` in the directory and for the name it returns. -/
def findInParent : Option Lookup := do
  match ← resolveParent dev g d path with
  | .missing => some (.entry none)
  | .fault => some .nullStore
  | .inDir cluster filename => (findInDir dev g d cluster (to83 filename)).map .entry

/-- The path has a slash, and the root directory has an entry for the part before it. -/
def HasDirectory : Prop :=
  47 ∈ path ∧ (pathHead path).length ≤ 63 ∧
    ∃ e, findInDir dev g d g.rootCluster (to83 (pathHead path)) = some (some e)

/-- The two lookups agree, also in not coming to an end, unless the directory of the path exists. -/
theorem parent_lookup_agrees_iff :
    findInParent dev g d path = (resolvePath dev g d path).map .entry ↔
      ¬ HasDirectory dev g d path := by
  by_cases hslash : 47 ∈ path
  · obtain ⟨rest, hrest, -⟩ := pathTail_eq_some hslash
    by_cases hlong : 63 < (pathHead path).length
    · have hno : ¬ HasDirectory dev g d path := fun h => absurd h.2.1 (Nat.not_le.mpr hlong)
      simp [findInParent, resolveParent, resolvePath, hrest, hlong, hno]
    · cases hdir : findInDir dev g d g.rootCluster (to83 (pathHead path)) with
      | none => simp [findInParent, resolveParent, resolvePath, HasDirectory, hrest, hlong, hdir]
      | some e =>
        cases e with
        | none => simp [findInParent, resolveParent, resolvePath, HasDirectory, hrest, hlong, hdir]
        | some e =>
          have hhas : HasDirectory dev g d path := ⟨hslash, Nat.not_lt.mp hlong, e, hdir⟩
          simp [findInParent, resolveParent, resolvePath, hrest, hlong, hdir, hhas]
  · have hno : ¬ HasDirectory dev g d path := fun h => hslash h.1
    simp [findInParent, resolveParent, resolvePath, pathTail_eq_none hslash, hno]

end Lookup

/-- The path D/X on a volume with an empty directory D: there is no such file, and looking for its
parent stores through a null pointer. -/
theorem parent_lookup_faults :
    resolvePath arrayDisk.toDevice directoryServer.geo directoryServer.disk [68, 47, 88] =
        some none ∧
      findInParent arrayDisk.toDevice directoryServer.geo directoryServer.disk [68, 47, 88] =
        some .nullStore := by
  decide +kernel

/-- Two live entries of a directory have one name. -/
def Volume.Repeats (V : Volume) (ps : List Slot) : Prop :=
  ∃ p ∈ V.active ps, ∃ q ∈ V.active ps, p ≠ q ∧ (V.entry p).isLive = true ∧
    (V.entry q).isLive = true ∧ (V.entry p).name = (V.entry q).name

/-- A name stands twice in the directory that starts at `s`, or in one below it. -/
inductive Layout.Ambiguous (L : Layout) (V : Volume) : ℕ → Prop
  | here {s : ℕ} {l : List ℕ} (hl : L.Chain V s l) (h : V.Repeats (L.slots l)) : Ambiguous L V s
  | deeper {s : ℕ} {l : List ℕ} {p : Slot} (hl : L.Chain V s l) (hp : p ∈ V.active (L.slots l))
      (howner : (V.entry p).isOwner = true) (hdir : (V.entry p).isDir = true)
      (h : Ambiguous L V (V.entry p).cluster) : Ambiguous L V s

section Ambiguous

variable {L : Layout} {V V' V₁ : Volume} {k s c start len : ℕ} {l lp lnew : List ℕ}
  {own : Slot → Set ℕ} {M : Set ℕ} {t p : Slot} {name : List UInt8} {data : ℕ → UInt8}

theorem Volume.Repeats.congr {ps : List Slot} (h : V.Repeats ps)
    (hV : ∀ p ∈ ps, (V'.entry p).name = (V.entry p).name ∧ (V'.entry p).attr = (V.entry p).attr) :
    V'.Repeats ps := by
  have hactive : V'.active ps = V.active ps := by
    apply Volume.active_congr
    intro p hp
    simp only [Entry.isEnd, Entry.first, (hV p hp).1]
  have hlive (p : Slot) (hp : p ∈ ps) : (V'.entry p).isLive = (V.entry p).isLive := by
    simp only [Entry.isLive, Entry.isFree, Entry.first, hV p hp]
  obtain ⟨p, hp, q, hq, hne, hp', hq', hname⟩ := h
  have hpm := Volume.mem_of_active hp
  have hqm := Volume.mem_of_active hq
  refine ⟨p, hactive ▸ hp, q, hactive ▸ hq, hne, ?_, ?_, ?_⟩
  · rw [hlive p hpm, hp']
  · rw [hlive q hqm, hq']
  · rw [(hV p hpm).1, (hV q hqm).1, hname]

namespace Layout.Ambiguous

/-- Such a directory is not empty. -/
theorem exists_chain (h : L.Ambiguous V s) : ∃ l, L.Chain V s (s :: l) := by
  have hcons {l : List ℕ} {p : Slot} (hl : L.Chain V s l) (hp : p ∈ V.active (L.slots l)) :
      ∃ l, L.Chain V s (s :: l) := by
    have hmem := (Layout.mem_slots.mp (Volume.mem_of_active hp)).1
    cases l with
    | nil => cases hmem
    | cons a l =>
      obtain ⟨rfl, -⟩ := Layout.Chain.cons_iff.mp hl
      exact ⟨l, hl⟩
  cases h with
  | here hl h =>
    obtain ⟨p, hp, -⟩ := h
    exact hcons hl hp
  | deeper hl hp => exact hcons hl hp

/-- It only depends on the clusters the directory owns. -/
theorem congr (h : L.Ambiguous V s) (ho : L.Owns V k true s M)
    (hV : ∀ c ∈ M, V'.fat c = V.fat c ∧ V'.data c = V.data c) : L.Ambiguous V' s := by
  induction h generalizing k M with
  | here hl h =>
    obtain ⟨l', hl', hM⟩ := ho.chain
    obtain rfl := hl.unique hl'
    refine .here (hl.congr fun c hc => (hV c (hM c hc)).1) (h.congr fun p hp => ?_)
    rw [Volume.entry_congr (hV _ (hM _ (Layout.mem_slots.mp hp).1)).2]
    exact ⟨rfl, rfl⟩
  | @deeper _ l p hl hp howner hdir _ ih =>
    cases k with
    | zero => exact absurd ho Layout.Owns.not_dir
    | succ k =>
      obtain ⟨l', own, hd, rfl⟩ := Layout.Owns.dir_iff.mp ho
      obtain rfl := hl.unique hd.chain
      have hentry (q : Slot) (hq : q ∈ L.slots l) : V'.entry q = V.entry q :=
        Volume.entry_congr (hV _ (.inl (Layout.mem_slots.mp hq).1)).2
      have hactive : V'.active (L.slots l) = V.active (L.slots l) :=
        Volume.active_congr fun q hq => by rw [hentry q hq]
      have hp' := hentry p (Volume.mem_of_active hp)
      have hsub := hd.owner p hp howner
      rw [hdir] at hsub
      refine .deeper (p := p) (hl.congr fun c hc => (hV c (.inl hc)).1) (hactive ▸ hp) ?_ ?_ ?_
      · rw [hp', howner]
      · rw [hp', hdir]
      · rw [hp']
        exact ih hsub fun c hc => hV c (Layout.Sound.mem_allOf_of_own hc)

end Layout.Ambiguous

theorem ambiguous_iff (hl : L.Chain V s l) : L.Ambiguous V s ↔ V.Repeats (L.slots l) ∨
    ∃ p ∈ V.active (L.slots l), (V.entry p).isOwner = true ∧ (V.entry p).isDir = true ∧
      L.Ambiguous V (V.entry p).cluster := by
  constructor
  · intro h
    cases h with
    | here hl' h =>
      obtain rfl := hl.unique hl'
      exact .inl h
    | deeper hl' hp howner hdir h =>
      obtain rfl := hl.unique hl'
      exact .inr ⟨_, hp, howner, hdir, h⟩
  · rintro (h | ⟨p, hp, howner, hdir, h⟩)
    · exact .here hl h
    · exact .deeper hl hp howner hdir h

theorem Volume.Tidy.active_of_live (h : V.Tidy (L.slots l)) (hp : p ∈ L.slots l)
    (hlive : (V.entry p).isLive = true) : p ∈ V.active (L.slots l) := by
  refine h.mem_active.mpr ⟨hp, ?_⟩
  simp only [Entry.isLive, Entry.isFree, Bool.and_eq_true, Bool.not_eq_true',
    Bool.or_eq_false_iff] at hlive
  exact hlive.1.1

/-- With one slot of the root directory replaced, only its name and what is below it matter. -/
theorem ambiguous_replaced_iff (hS : L.Sound V k l own) (hr : L.Replaced V V' l own t)
    (hd : ¬ L.Ambiguous V L.rootCluster) (ht : t ∈ L.slots l) :
    L.Ambiguous V' L.rootCluster ↔
      (V'.entry t).isLive = true ∧ (∃ q ∈ L.slots l, q ≠ t ∧ (V.entry q).isLive = true ∧
        (V.entry q).name = (V'.entry t).name) ∨
      (V'.entry t).isOwner = true ∧ (V'.entry t).isDir = true ∧
        L.Ambiguous V' (V'.entry t).cluster := by
  rw [ambiguous_iff hS.root.chain, not_or] at hd
  rw [ambiguous_iff (hS.root.chain.congr hr.fat)]
  have hactive {q : Slot} (hq : q ∈ V'.active (L.slots l)) (hqt : q ≠ t) :
      q ∈ V.active (L.slots l) ∧ V'.entry q = V.entry q := by
    obtain ⟨hm, hend⟩ := hr.tidy.mem_active.mp hq
    have heq := hr.entry q hm hqt
    exact ⟨hS.tidy.mem_active.mpr ⟨hm, heq ▸ hend⟩, heq⟩
  constructor
  · rintro (⟨p, hp, q, hq, hne, hp', hq', hname⟩ | ⟨p, hp, howner, hdir, h⟩)
    · left
      by_cases hpt : p = t
      · subst hpt
        obtain ⟨hqa, heq⟩ := hactive hq hne.symm
        rw [heq] at hq' hname
        exact ⟨hp', q, Volume.mem_of_active hq, hne.symm, hq', hname.symm⟩
      · obtain ⟨hpa, heq⟩ := hactive hp hpt
        rw [heq] at hp' hname
        by_cases hqt : q = t
        · subst hqt
          exact ⟨hq', p, Volume.mem_of_active hp, hne, hp', hname⟩
        · obtain ⟨hqa, heq'⟩ := hactive hq hqt
          rw [heq'] at hq' hname
          exact absurd ⟨p, hpa, q, hqa, hne, hp', hq', hname⟩ hd.1
    · right
      by_cases hpt : p = t
      · subst hpt
        exact ⟨howner, hdir, h⟩
      · obtain ⟨hpa, heq⟩ := hactive hp hpt
        rw [heq] at howner hdir h
        have hsub := hS.root.owner p hpa howner
        rw [hdir] at hsub
        refine absurd ⟨p, hpa, howner, hdir, ?_⟩ hd.2
        exact h.congr (hsub.congr (hr.owned p hpt)) fun c hc =>
          ⟨(hr.owned p hpt c hc).1.symm, (hr.owned p hpt c hc).2.symm⟩
  · rintro (⟨hlive, q, hq, hqt, hlive', hname⟩ | ⟨howner, hdir, h⟩)
    · left
      have heq := hr.entry q hq hqt
      refine ⟨t, hr.tidy.active_of_live ht hlive, q, hr.tidy.active_of_live hq ?_, hqt.symm, hlive,
        ?_, ?_⟩
      · rw [heq, hlive']
      · rw [heq, hlive']
      · rw [heq, hname]
    · right
      refine ⟨t, hr.tidy.active_of_live ht ?_, howner, hdir, h⟩
      simp only [Entry.isOwner, Bool.and_eq_true] at howner
      exact howner.1

theorem deleted_distinct (hS : L.Sound V k l own) (hd : ¬ L.Ambiguous V L.rootCluster)
    (hp : V.find name (L.slots l) = some p) (hlp : L.Chain V (V.entry p).cluster lp) :
    ¬ L.Ambiguous ((V.deleted p).free ((V.entry p).released lp)) L.rootCluster := by
  obtain ⟨hlive, howner⟩ := deleted_not_owner V p ((V.entry p).released lp)
  rw [ambiguous_replaced_iff hS (deleted_replaced hS hp hlp) hd (Volume.find_mem hp), hlive, howner]
  simp

/-- A new file has a name that was not there. -/
theorem file_distinct (hS : L.Sound V k l own) (hd : ¬ L.Ambiguous V L.rootCluster)
    (hs : Stored L V data len start lnew V₁) (hnone : V.find name (L.slots l) = none)
    (hp : V.freeSlot (L.slots l) = some p) (hn : name.length = 11) (h0 : name.getD 0 0 ≠ 0) :
    ¬ L.Ambiguous (V₁.added (p.target L.rootCluster) (fileEntry name start len))
      L.rootCluster := by
  have hread := readEntry_fileEntry hn start len
  have hend : (readEntry (fileEntry name start len) 0).isEnd = false := by
    rw [hread]
    simpa [Entry.isEnd, Entry.first] using h0
  have hdir : (readEntry (fileEntry name start len) 0).isDir = false := by
    rw [hread]
    exact (by decide : ((0x20 : UInt8) &&& 0x10 != 0) = false)
  rw [ambiguous_replaced_iff hS (added_replaced hS hs.agree hp hend) hd
    (mem_slots_target hS.root.chain hp), entry_added, if_pos rfl, hdir]
  rintro (⟨-, q, hq, -, hlive, hname⟩ | ⟨-, h, -⟩)
  · rw [hS.tidy.find_eq, List.find?_eq_none] at hnone
    refine hnone q hq ?_
    rw [hread] at hname
    simp [Entry.isNamed, hlive, hname]
  · cases h

/-- A directory that ends in its first sector repeats no name when that sector does not. -/
theorem not_repeats_of_nodup {sec : Sector} (hdata : V.data c 0 = sec)
    (hend : (readEntry sec 64).isEnd = true) (h : ((sectorEntries sec).map Entry.name).Nodup) :
    ¬ V.Repeats (L.slots [c]) := by
  rintro ⟨p, hp, q, hq, hne, -, -, hname⟩
  rw [active_single hdata hend] at hp hq
  rw [← map_active hdata, List.map_map] at h
  exact hne (List.inj_on_of_nodup_map h hp hq hname)

/-- The two entries of a new directory have different names and lead back. -/
theorem withDots_distinct (hc : L.Chain V c [c]) (hdata : V.data c 0 = dotSector c s) :
    ¬ L.Ambiguous V c := by
  have hname : (readEntry (dotSector c s) 0).name ≠ (readEntry (dotSector c s) 32).name := by
    intro h
    have h1 := congrArg (·.getD 1 0) h
    simp [readEntry, dotSector, store, fill] at h1
  rw [ambiguous_iff hc]
  rintro (hrep | ⟨p, hp, howner, -⟩)
  · refine not_repeats_of_nodup hdata (dotSector_end c s) ?_ hrep
    rw [sectorEntries_dotSector]
    simpa using hname
  · rw [dotSector_entries _ _ _ (entry_mem_sectorEntries hdata (dotSector_end c s) hp)] at howner
    cases howner

/-- A new directory repeats a name when another slot has it. -/
theorem dir_ambiguous_iff (hS : L.Sound V k l own) (hd : ¬ L.Ambiguous V L.rootCluster)
    (hf : V.firstFree L = some c) (hp : V.freeSlot (L.slots l) = some p) (hn : name.length = 11)
    (h0 : name.getD 0 0 ≠ 0) :
    L.Ambiguous ((V.withDots c L.rootCluster).added (p.target L.rootCluster) (dirEntry name c))
        L.rootCluster ↔
      ∃ q ∈ L.slots l, q ≠ p.target L.rootCluster ∧ (V.entry q).isLive = true ∧
        (V.entry q).name = name := by
  have hread := readEntry_dirEntry hn c
  have hend : (readEntry (dirEntry name c) 0).isEnd = false := by
    rw [hread]
    simpa [Entry.isEnd, Entry.first] using h0
  obtain ⟨hcl, hfree⟩ := Volume.firstFree_spec hf
  have hmem := mem_slots_target hS.root.chain hp
  have hne : c ≠ (p.target L.rootCluster).cluster := by
    intro he
    have hused := (hS.root.chain.used _ (Layout.mem_slots.mp hmem).1).2
    rw [← he] at hused
    exact hused hfree
  have hchain : L.Chain ((V.withDots c L.rootCluster).added (p.target L.rootCluster)
      (dirEntry name c)) c [c] := (withDots_chain hf L.rootCluster).congr fun _ _ => rfl
  have hdata : ((V.withDots c L.rootCluster).added (p.target L.rootCluster)
      (dirEntry name c)).data c 0 = dotSector c L.rootCluster := by
    rw [Volume.added, data_setSlot_of_ne _ _ _ hne]
    simp [Volume.withDots]
  have hlt : c < 2 ^ 32 := (Layout.lt_two_pow hcl.lt_entries).trans (by decide)
  rw [ambiguous_replaced_iff hS (added_replaced hS (withDots_agree hf _) hp hend) hd hmem,
    entry_added, if_pos rfl, hread, Nat.mod_eq_of_lt hlt]
  constructor
  · rintro (⟨-, h⟩ | ⟨-, -, h⟩)
    · exact h
    · exact absurd h (withDots_distinct hchain hdata)
  · rintro ⟨q, hq, hqt, hlive, hname⟩
    refine .inl ⟨?_, q, hq, hqt, hlive, hname⟩
    -- The name of a live entry is not that of a deleted one.
    have hfirst : name.getD 0 0 ≠ 0xE5 := by
      intro he
      rw [Entry.isLive, Entry.isFree, Entry.first, hname, he] at hlive
      simp at hlive
    simp only [Entry.isLive, Entry.isFree, Entry.first, Bool.and_eq_true, Bool.not_eq_true',
      Bool.or_eq_false_iff, beq_eq_false_iff_ne]
    exact ⟨⟨h0, hfirst⟩, by decide⟩

/-- With another first cluster an entry keeps its name, and its old chain is gone. -/
theorem overwritten_ambiguous_iff (hlp : L.Chain V (V.entry p).cluster lp)
    (hp : V₁.entry p = V.entry p) (hstart : start < 2 ^ 32) :
    L.Ambiguous (V₁.overwritten p lp start len) start ↔ L.Ambiguous (V₁.free lp) start := by
  have hsame (q : Slot) : ((V₁.overwritten p lp start len).entry q).name =
        ((V₁.free lp).entry q).name ∧
      ((V₁.overwritten p lp start len).entry q).attr = ((V₁.free lp).entry q).attr := by
    rw [entry_overwritten]
    split
    next h =>
      subst h
      exact ⟨rfl, rfl⟩
    next => exact ⟨rfl, rfl⟩
  have hself : ((V₁.overwritten p lp start len).entry p).cluster = start := by
    rw [entry_overwritten, if_pos rfl]
    exact Nat.mod_eq_of_lt hstart
  have hother {q : Slot} (hq : q ≠ p) :
      (V₁.overwritten p lp start len).entry q = (V₁.free lp).entry q := by
    rw [entry_overwritten, if_neg hq]
    rfl
  have hactive (ps : List Slot) :
      (V₁.overwritten p lp start len).active ps = (V₁.free lp).active ps := by
    apply Volume.active_congr
    intro q _
    simp only [Entry.isEnd, Entry.first, (hsame q).1]
  have howner (q : Slot) : ((V₁.overwritten p lp start len).entry q).isOwner =
        ((V₁.free lp).entry q).isOwner ∧
      ((V₁.overwritten p lp start len).entry q).isDir = ((V₁.free lp).entry q).isDir := by
    simp only [Entry.isOwner, Entry.isLive, Entry.isFree, Entry.isDot, Entry.isDir, Entry.first,
      hsame q, and_self]
  have hto {s : ℕ} (h : L.Ambiguous (V₁.overwritten p lp start len) s) :
      L.Ambiguous (V₁.free lp) s ∨ L.Ambiguous (V₁.free lp) start := by
    induction h with
    | here hl h =>
      exact .inl (.here (hl.congr fun _ _ => rfl) (h.congr fun q _ =>
        ⟨(hsame q).1.symm, (hsame q).2.symm⟩))
    | @deeper _ l q hl hq hq' hdir _ ih =>
      by_cases hqp : q = p
      · subst hqp
        rw [hself, or_self] at ih
        exact .inr ih
      · refine ih.imp (fun h => ?_) id
        rw [hother hqp] at h
        refine .deeper (p := q) (hl.congr fun _ _ => rfl) (hactive _ ▸ hq) ?_ ?_ h
        · rw [← (howner q).1, hq']
        · rw [← (howner q).2, hdir]
  have hfrom {s : ℕ} (h : L.Ambiguous (V₁.free lp) s) :
      L.Ambiguous (V₁.overwritten p lp start len) s := by
    induction h with
    | here hl h => exact .here (hl.congr fun _ _ => rfl) (h.congr fun q _ => hsame q)
    | @deeper _ l q hl hq hq' hdir hbelow ih =>
      have hqp : q ≠ p := by
        rintro rfl
        -- The old chain of the slot is given back, so that nothing starts there.
        obtain ⟨lq, hlq⟩ := hbelow.exists_chain
        obtain ⟨-, -, hused, -⟩ := Layout.Chain.cons_iff.mp hlq
        have heq : ((V₁.free lp).entry q).cluster = (V.entry q).cluster :=
          congrArg Entry.cluster hp
        rw [heq] at hlq hused
        cases lp with
        | nil => cases hlq.unique (.of_not_link hlp.not_link)
        | cons a lp =>
          obtain ⟨ha, -⟩ := Layout.Chain.cons_iff.mp hlp
          rw [Volume.free_fat, if_pos (by simp [ha])] at hused
          exact hused rfl
      refine .deeper (p := q) (hl.congr fun _ _ => rfl) ((hactive _).symm ▸ hq) ?_ ?_ ?_
      · rw [(howner q).1, hq']
      · rw [(howner q).2, hdir]
      · rw [hother hqp]
        exact ih
  exact ⟨fun h => (hto h).elim id id, hfrom⟩

/-- Overwriting an entry matters only when it is that of a directory. -/
theorem overwrite_ambiguous_iff (hS : L.Sound V k l own) (hd : ¬ L.Ambiguous V L.rootCluster)
    (hs : Stored L V data len start lnew V₁) (hp : V.find name (L.slots l) = some p)
    (hlp : L.Chain V (V.entry p).cluster lp) :
    L.Ambiguous (V₁.overwritten p lp start len) L.rootCluster ↔
      (V.entry p).isDir = true ∧ L.Ambiguous (V₁.free lp) start := by
  have hmem := Volume.find_mem hp
  have hlive := (Layout.Sound.live_of_named (Volume.find_spec hp).2).1
  have hold := hs.agree.entry_eq hS.root.chain hmem
  have hentry : (V₁.overwritten p lp start len).entry p =
      { V.entry p with cluster := start, size := len % 2 ^ 32 } := by
    rw [entry_overwritten, if_pos rfl, hold, Nat.mod_eq_of_lt hs.start_lt]
  have hr := overwritten_replaced hS hs.agree hp hlp hs.start_lt
    (fun a (ha : a ∈ []) => absurd ha List.not_mem_nil) len
  rw [Volume.free_nil] at hr
  rw [ambiguous_replaced_iff hS hr hd hmem, hentry]
  constructor
  · rintro (⟨-, q, hq, hqp, hlive', hname⟩ | ⟨-, hdir, h⟩)
    · refine absurd (.here hS.root.chain ?_) hd
      exact ⟨q, hS.tidy.active_of_live hq hlive', p, hS.tidy.active_of_live hmem hlive, hqp, hlive',
        hlive, hname⟩
    · exact ⟨hdir, (overwritten_ambiguous_iff hlp hold hs.start_lt).mp h⟩
  · rintro ⟨hdir, h⟩
    exact .inr ⟨(hS.active_of_live hmem hlive).2, hdir,
      (overwritten_ambiguous_iff hlp hold hs.start_lt).mpr h⟩

end Ambiguous

/-- No cluster in use leads to a free one. -/
def Layout.Closed (L : Layout) (V : Volume) : Prop :=
  ∀ a, L.IsCluster a → isLink (V.fat a) = true → V.fat (V.fat a) ≠ 0

section Spelt

variable {L : Layout} {V : Volume} {s c len : ℕ} {l lp : List ℕ} {data : ℕ → UInt8}

/-- Data of this length read as a directory: a name stands twice in it, or an entry leads to a
directory that has a name twice. -/
def Spells (L : Layout) (U : Volume) (sec : Sector) : Prop :=
  (∃ e ∈ sectorEntries sec, ∃ e' ∈ sectorEntries sec, e ≠ e' ∧ e.isLive = true ∧
    e'.isLive = true ∧ e.name = e'.name) ∨
  ∃ e ∈ sectorEntries sec, e.isOwner = true ∧ e.isDir = true ∧ L.Ambiguous U e.cluster

/-- A chain with the new cluster has no other. -/
theorem chain_stored (hclosed : L.Closed V) (hf : V.firstFree L = some c)
    (hl : L.Chain ((V.stored c data len).free lp) s l) (hc : c ∈ l) : s = c ∧ l = [c] := by
  obtain ⟨hcl, hfree⟩ := Volume.firstFree_spec hf
  have hlim := L.limit_le
  have hfirst : c = s := by
    rcases hl.eq_or_pred hc with h | ⟨b, hb, hfat⟩
    · exact h
    · -- A link to the new cluster would be one to a free cluster.
      obtain ⟨hbc, hused⟩ := hl.used b hb
      rw [Volume.free_fat] at hfat hused
      split at hfat
      next h => exact absurd (if_pos h) hused
      next =>
        simp only [Volume.stored, Volume.setSector_fat, Volume.setFat_fat] at hfat
        split at hfat
        · have hlt := hcl.2
          omega
        · refine absurd ?_ (hclosed b hbc (hfat ▸ hcl.isLink))
          rw [hfat, hfree]
  subst hfirst
  have hout : c ∉ lp := by
    intro hm
    have hused := (hl.used c hc).2
    rw [Volume.free_fat, if_pos hm] at hused
    exact hused rfl
  refine ⟨rfl, hl.unique (.single hcl ?_)⟩
  simp [Volume.stored, hout]

/-- What the clusters other than the new one hold is as before. -/
theorem entry_stored {q : Slot} (hq : q.cluster ≠ c) :
    ((V.stored c data len).free lp).entry q = (V.free lp).entry q := by
  apply Volume.entry_congr
  funext n
  simp [Volume.stored, hq]

/-- With the new cluster in place, a directory has a name twice below it when it had before, or
when the data spells that. -/
theorem ambiguous_stored (hclosed : L.Closed V) (hf : V.firstFree L = some c) (hlen : len ≤ 64)
    (h : L.Ambiguous ((V.stored c data len).free lp) s) :
    Volume.Repeats ((V.stored c data len).free lp) (L.slots [c]) ∨
      (∃ e ∈ sectorEntries (dataSector data 0 len), e.isOwner = true ∧ e.isDir = true ∧
        L.Ambiguous (V.free lp) e.cluster) ∨ L.Ambiguous (V.free lp) s := by
  have hdata : ((V.stored c data len).free lp).data c 0 = dataSector data 0 len := by
    simp [Volume.stored]
  have hout {l : List ℕ} (hc : c ∉ l) (q : Slot) (hq : q ∈ L.slots l) :
      ((V.stored c data len).free lp).entry q = (V.free lp).entry q := by
    apply entry_stored
    rintro rfl
    exact hc (Layout.mem_slots.mp hq).1
  have hchain {s : ℕ} {l : List ℕ} (hc : c ∉ l)
      (hl : L.Chain ((V.stored c data len).free lp) s l) : L.Chain (V.free lp) s l := by
    refine hl.congr fun a ha => ?_
    have hne : a ≠ c := by
      rintro rfl
      exact hc ha
    simp [Volume.stored, hne]
  induction h with
  | @here s l hl hrep =>
    by_cases hc : c ∈ l
    · obtain ⟨rfl, rfl⟩ := chain_stored hclosed hf hl hc
      exact .inl hrep
    · refine .inr (.inr (.here (hchain hc hl) (hrep.congr fun q hq => ?_)))
      rw [hout hc q hq]
      exact ⟨rfl, rfl⟩
  | @deeper s l p hl hp howner hdir _ ih =>
    rcases ih with hrep | hspelt | hbelow
    · exact .inl hrep
    · exact .inr (.inl hspelt)
    · by_cases hc : c ∈ l
      · obtain ⟨rfl, rfl⟩ := chain_stored hclosed hf hl hc
        exact .inr (.inl ⟨_, entry_mem_sectorEntries hdata (dataSector_end data hlen) hp, howner,
          hdir, hbelow⟩)
      · have hactive : (V.free lp).active (L.slots l) =
            ((V.stored c data len).free lp).active (L.slots l) :=
          Volume.active_congr fun q hq => by rw [hout hc q hq]
        rw [hout hc p (Volume.mem_of_active hp)] at howner hdir hbelow
        exact .inr (.inr (.deeper (hchain hc hl) (hactive ▸ hp) howner hdir hbelow))

/-- What had a name twice before still has it. -/
theorem ambiguous_stored_of (hf : V.firstFree L = some c) (h : L.Ambiguous (V.free lp) s) :
    L.Ambiguous ((V.stored c data len).free lp) s := by
  have hfree := (Volume.firstFree_spec hf).2
  have hne {s a : ℕ} {l : List ℕ} (hl : L.Chain (V.free lp) s l) (ha : a ∈ l) : a ≠ c := by
    rintro rfl
    have hused := (hl.used a ha).2
    simp [hfree] at hused
  have hout {s : ℕ} {l : List ℕ} (hl : L.Chain (V.free lp) s l) (q : Slot) (hq : q ∈ L.slots l) :
      ((V.stored c data len).free lp).entry q = (V.free lp).entry q :=
    entry_stored (hne hl (Layout.mem_slots.mp hq).1)
  have hchain {s : ℕ} {l : List ℕ} (hl : L.Chain (V.free lp) s l) :
      L.Chain ((V.stored c data len).free lp) s l :=
    hl.congr fun a ha => by simp [Volume.stored, hne hl ha]
  induction h with
  | here hl hrep =>
    refine .here (hchain hl) (hrep.congr fun q hq => ?_)
    rw [hout hl q hq]
    exact ⟨rfl, rfl⟩
  | @deeper s l p hl hp howner hdir _ ih =>
    have hactive : ((V.stored c data len).free lp).active (L.slots l) =
        (V.free lp).active (L.slots l) :=
      Volume.active_congr fun q hq => by rw [hout hl q hq]
    have heq := hout hl p (Volume.mem_of_active hp)
    refine .deeper (hchain hl) (hactive ▸ hp) (heq ▸ howner) (heq ▸ hdir) ?_
    rw [heq]
    exact ih

/-- The new directory has a name twice when its data spells that, and only then when there is one
entry at most. -/
theorem ambiguous_of_spells (hf : V.firstFree L = some c) (hlp : c ∉ lp) (hlen : len ≤ 64)
    (h : Spells L (V.free lp) (dataSector data 0 len)) :
    L.Ambiguous ((V.stored c data len).free lp) c := by
  have hdata : ((V.stored c data len).free lp).data c 0 = dataSector data 0 len := by
    simp [Volume.stored]
  have hchain : L.Chain ((V.stored c data len).free lp) c [c] :=
    .single (Volume.firstFree_spec hf).1 (by simp [Volume.stored, hlp])
  have hslot {e : Entry} (he : e ∈ sectorEntries (dataSector data 0 len)) :=
    exists_slot_of_mem (L := L) hdata (dataSector_end data hlen) he
  rcases h with ⟨e, he, e', he', hne, hlive, hlive', hname⟩ | ⟨e, he, howner, hdir, hbelow⟩
  · obtain ⟨q, hq, rfl, -⟩ := hslot he
    obtain ⟨q', hq', rfl, -⟩ := hslot he'
    exact .here hchain ⟨q, hq, q', hq', fun h => hne (by rw [h]), hlive, hlive', hname⟩
  · obtain ⟨q, hq, rfl, -⟩ := hslot he
    exact .deeper hchain hq howner hdir (ambiguous_stored_of hf hbelow)

/-- Data of up to 32 bytes has one entry at most. -/
theorem sectorEntries_short (hlen : len ≤ 32) :
    ((sectorEntries (dataSector data 0 len)).map Entry.name).Nodup := by
  have hend : (readEntry (dataSector data 0 len) 32).isEnd = true := by
    rw [Entry.isEnd, readEntry_first, dataSector, if_neg (by omega)]
    rfl
  have hrange : List.range 16 = 0 :: 1 :: List.range' 2 14 := by decide
  rw [sectorEntries, hrange, List.map_cons, List.map_cons, List.takeWhile_cons, List.takeWhile_cons]
  split <;> simp [hend]

/-- Two entries with one name in 33 bytes. -/
def twiceData (i : ℕ) : UInt8 := if i = 0 ∨ i = 32 then 65 else if i = 28 then 1 else 0

theorem spells_twice (L : Layout) (U : Volume) (hlen : 33 ≤ len) :
    Spells L U (dataSector twiceData 0 len) := by
  have hsec : dataSector twiceData 0 len = dataSector twiceData 0 33 := by
    funext i
    simp only [dataSector, twiceData]
    split_ifs <;> first | rfl | omega
  have heval : readEntry (dataSector twiceData 0 33) 0 ∈
        sectorEntries (dataSector twiceData 0 33) ∧
      readEntry (dataSector twiceData 0 33) 32 ∈ sectorEntries (dataSector twiceData 0 33) ∧
      readEntry (dataSector twiceData 0 33) 0 ≠ readEntry (dataSector twiceData 0 33) 32 ∧
      (readEntry (dataSector twiceData 0 33) 0).isLive = true ∧
      (readEntry (dataSector twiceData 0 33) 32).isLive = true ∧
      (readEntry (dataSector twiceData 0 33) 0).name =
        (readEntry (dataSector twiceData 0 33) 32).name := by
    decide +kernel
  obtain ⟨h0, h1, hne, hlive, hlive', hname⟩ := heval
  rw [hsec]
  exact .inl ⟨_, h0, _, h1, hne, hlive, hlive', hname⟩

end Spelt

/-- The requests that give a directory a name twice, with the data they hold or with other data of
the same length. -/
inductive Duplicates (L : Layout) (V : Volume) (l : List ℕ) (req : Request) : Prop
  /-- A directory is made under a name that the root directory has, at a slot that is not written
  over. -/
  | made {p q : Slot} (htype : req.type = 4) (hroot : 47 ∉ req.path) (hf : V.firstFree L ≠ none)
      (hp : V.freeSlot (L.slots l) = some p) (hq : q ∈ L.slots l)
      (hqt : q ≠ p.target L.rootCluster) (hlive : (V.entry q).isLive = true)
      (hname : (V.entry q).name = to83 req.path)
  /-- A directory is overwritten by data that is long enough for two entries, or for an entry that
  leads to a cluster in use with contents that, read as a directory, have a name twice or lead to
  such a directory. -/
  | spelt {p : Slot} {lp : List ℕ} {c : ℕ} (htype : req.type = 2) (hroot : 47 ∉ req.path)
      (hlong : req.path.length + 1 ≤ req.length) (hpos : 0 < req.dataLen)
      (hf : V.firstFree L = some c) (hp : V.find (to83 req.path) (L.slots l) = some p)
      (hdir : (V.entry p).isDir = true) (hend : V.endsAfter p = false)
      (hlp : L.Chain V (V.entry p).cluster lp)
      (hcan : 33 ≤ req.dataLen ∨ ∃ data, ∃ e ∈ sectorEntries (dataSector data 0 req.dataLen),
        e.isOwner = true ∧ e.isDir = true ∧ L.Ambiguous (V.free lp) e.cluster)

/-- Only the type, the path and the length matter. -/
theorem Duplicates.of_alike {L : Layout} {V : Volume} {l : List ℕ} {req req' : Request}
    (h : Duplicates L V l req') (hreq : req.Alike req') : Duplicates L V l req := by
  have htype := hreq.type
  have hpath := hreq.path
  have hlen := hreq.dataLen
  cases h with
  | made h4 hroot hf hp hq hqt hlive hname =>
    rw [htype] at h4
    rw [hpath] at hroot hname
    exact .made h4 hroot hf hp hq hqt hlive hname
  | spelt h2 hroot hlong hpos hf hp hdir hend hlp hcan =>
    rw [htype] at h2
    rw [hpath] at hroot hp
    rw [hpath, hreq.length] at hlong
    rw [hlen] at hpos hcan
    exact .spelt h2 hroot hlong hpos hf hp hdir hend hlp hcan

section Distinct

variable {L : Layout} {V V' : Volume} {k : ℕ} {l : List ℕ} {own : Slot → Set ℕ} {req : Request}

/-- A request that is none of these and is answered 200 leaves the names distinct. -/
private theorem Effect.distinct (hS : L.Sound V k l own) (hclosed : L.Closed V)
    (hd : ¬ L.Ambiguous V L.rootCluster) (hroot : 47 ∉ req.path) (hfits : req.length ≤ 64)
    (h : Effect L V l req true V') (hgood : ¬ Duplicates L V l req) :
    ¬ L.Ambiguous V' L.rootCluster := by
  have hn := to83_length req.path
  have h0 := (to83_first req.path_no_zero).2
  have hlen : req.dataLen ≤ 64 := by
    unfold Request.dataLen
    omega
  cases h with
  | write htype hlong h =>
    cases h with
    | @overwritten p lp start lnew V₁ hp hlp hend hs =>
      rw [overwrite_ambiguous_iff hS hd hs hp hlp]
      rintro ⟨hdir, htwice⟩
      generalize hlen' : req.dataLen = len at hs
      cases hs with
      | none =>
        obtain ⟨l₀, hl₀⟩ := htwice.exists_chain
        cases hl₀.unique (.of_not_link rfl)
      | some hpos hf =>
        rw [← hlen'] at hpos htwice
        refine hgood (.spelt htype hroot hlong hpos hf hp hdir hend hlp ?_)
        rcases ambiguous_stored hclosed hf hlen htwice with hrep | hspelt | hbelow
        · by_contra hno
          rw [not_or, Nat.not_le] at hno
          have hdata : ((V.stored start (req.contents req.path) req.dataLen).free lp).data start 0 =
              dataSector (req.contents req.path) 0 req.dataLen := by
            simp [Volume.stored]
          exact not_repeats_of_nodup hdata (dataSector_end _ hlen)
            (sectorEntries_short (by omega)) hrep
        · exact .inr ⟨_, hspelt⟩
        · obtain ⟨l₀, hl₀⟩ := hbelow.exists_chain
          have hused := (hl₀.used start (by simp)).2
          simp [(Volume.firstFree_spec hf).2] at hused
    | added hnone hp hs => exact file_distinct hS hd hs hnone hp hn h0
  | delete htype h =>
    cases h with
    | deleted hp hlp => exact deleted_distinct hS hd hp hlp
  | make htype h =>
    cases h with
    | added hf hp =>
      rw [dir_ambiguous_iff hS hd hf hp hn h0]
      rintro ⟨q, hq, hqt, hlive, hname⟩
      exact hgood (.made htype hroot (by rw [hf]; simp) hp hq hqt hlive hname)

/-- Each of these requests, with suitable data, is answered 200 and leaves a name twice. -/
private theorem Duplicates.exists_alike (hdup : Duplicates L V l req) (hS : L.Sound V k l own)
    (hd : ¬ L.Ambiguous V L.rootCluster) (hfits : req.length ≤ 64) :
    ∃ req', req.Alike req' ∧ ∀ b V', Effect L V l req' b V' →
      b = true ∧ L.Ambiguous V' L.rootCluster := by
  cases hdup with
  | made htype _ hf hp hq hqt hlive hname =>
    refine ⟨req, ⟨rfl, rfl, rfl⟩, fun b V' h => ?_⟩
    cases h.make_of htype with
    | noSpace hf' => exact absurd hf' hf
    | full _ hfull =>
      rw [hp] at hfull
      cases hfull
    | added hf' hp' =>
      obtain rfl := Option.some.inj (hp.symm.trans hp')
      exact ⟨rfl, (dir_ambiguous_iff hS hd hf' hp (to83_length _)
        (to83_first req.path_no_zero).2).mpr ⟨_, hq, hqt, hlive, hname⟩⟩
  | @spelt p lp c htype hroot hlong hpos hf hp hdir hend hlp hcan =>
    have hlen : req.dataLen ≤ 64 := by
      unfold Request.dataLen
      omega
    have hspells : ∃ data, Spells L (V.free lp) (dataSector data 0 req.dataLen) := by
      rcases hcan with hlong | ⟨data, hspelt⟩
      · exact ⟨_, spells_twice L _ hlong⟩
      · exact ⟨data, .inr hspelt⟩
    obtain ⟨data, hspells⟩ := hspells
    obtain ⟨halike, hcontents⟩ := alike_writeRequest htype hroot hlong hfits data
    refine ⟨_, halike, fun b V' h => ?_⟩
    have hw := h.write_of (halike.type.trans htype)
      (by rw [halike.path, halike.length]; exact hlong)
    rw [halike.path, halike.dataLen] at hw
    cases hw with
    | noSpace _ hnone => rw [hf] at hnone; cases hnone
    | full hnone => rw [hp] at hnone; cases hnone
    | added hnone => rw [hp] at hnone; cases hnone
    | refused hq _ hend' =>
      obtain rfl := Option.some.inj (hp.symm.trans hq)
      rw [hend] at hend'
      cases hend'
    | @overwritten q lq start lnew V₁ hq hlq _ hs =>
      obtain rfl := Option.some.inj (hp.symm.trans hq)
      obtain rfl := hlp.unique hlq
      refine ⟨rfl, (overwrite_ambiguous_iff hS hd hs hp hlp).mpr ⟨hdir, ?_⟩⟩
      rw [← dataSector_congr hcontents] at hspells
      generalize req.dataLen = len at hs hpos hlen hspells
      cases hs with
      | none => omega
      | some _ hf' =>
        refine ambiguous_of_spells hf' (fun hm => ?_) hlen hspells
        exact (hlp.used _ hm).2 (Volume.firstFree_spec hf').2

variable {δ : Type} {D : ReliableDisk δ} {s : Server δ}

/-- On a consistent volume on which no directory has a name twice, a request that is answered 200
leaves it so, whatever data it holds, unless it is one of those that give a name twice. -/
theorem names_stay_distinct_iff (spawn : Mem → ℕ → Option ℕ) (hgeo : s.geo = L.toGeometry)
    (hc : L.Consistent (D.sectors s.disk) k l own)
    (hclosed : L.Closed (L.view (D.sectors s.disk)))
    (hd : ¬ L.Ambiguous (L.view (D.sectors s.disk)) L.rootCluster)
    (htype : req.type = 2 ∨ req.type = 3 ∨ req.type = 4 ∨ req.type = 5)
    (hfits : req.length ≤ 64) :
    (∀ req', req.Alike req' → ∀ s', serve D.toDevice spawn s req' =
        some (.replied [⟨200, []⟩] s') →
      ¬ L.Ambiguous (L.view (D.sectors s'.disk)) L.rootCluster) ↔
      ¬ Duplicates L (L.view (D.sectors s.disk)) l req := by
  have hserved {req' : Request} (h : req.Alike req') (hslash : 47 ∉ req.path) :=
    serve_root D spawn req' hgeo hc (by rw [h.type]; exact htype) (by rw [h.path]; exact hslash)
      (by rw [h.length]; exact hfits)
  constructor
  · intro hall hdup
    have hslash : 47 ∉ req.path := by
      cases hdup with
      | made _ hroot => exact hroot
      | spelt _ hroot => exact hroot
    obtain ⟨req', halike, hbad⟩ := hdup.exists_alike hc.sound hd hfits
    obtain ⟨b, d', V', hres, hV', heffect⟩ := hserved halike hslash
    obtain ⟨rfl, hamb⟩ := hbad b V' heffect
    rw [← hV'.view_eq] at hamb
    exact hall req' halike _ hres hamb
  · intro hgood req' halike s' hserve
    by_cases hslash : 47 ∈ req.path
    · cases serve_slash hserve (by rw [halike.type]; omega) (by rw [halike.path]; exact hslash)
    · obtain ⟨b, d', V', hres, hV', heffect⟩ := hserved halike hslash
      rw [hres] at hserve
      cases b with
      | true =>
        cases hserve
        change ¬ L.Ambiguous (L.view (D.sectors d')) L.rootCluster
        rw [hV'.view_eq]
        exact heffect.distinct hc.sound hclosed hd (by rw [halike.path]; exact hslash)
          (by rw [halike.length]; exact hfits) fun hdup => hgood (hdup.of_alike halike)
      | false => cases hserve

end Distinct

section Sample

/-- The request to make a directory with a name of one letter. -/
def makeRequest (letter : UInt8) : Request := ⟨4, fun i => if i = 0 then letter else 0, 2⟩

private theorem directoryVolume_distinct :
    ¬ sampleLayout.Ambiguous (sampleLayout.view directoryServer.disk) sampleLayout.rootCluster := by
  obtain ⟨hroot, hsub⟩ := directoryVolume_chain
  have hdata : directoryVolume.data 3 0 = dotSector 3 2 := Layout.view_data (by decide) (by decide)
  intro h
  rcases (ambiguous_iff hroot).mp h with ⟨p, hp, q, hq, hne, hp', hq', -⟩ | ⟨p, hp, howner, -, h⟩
  · rw [directoryVolume_live p (Volume.mem_of_active hp) hp',
      directoryVolume_live q (Volume.mem_of_active hq) hq'] at hne
    exact hne rfl
  · simp only [Entry.isOwner, Bool.and_eq_true] at howner
    rw [directoryVolume_live p (Volume.mem_of_active hp) howner.1, directoryVolume_entry] at h
    exact withDots_distinct hsub hdata h

private theorem directoryVolume_closed :
    sampleLayout.Closed (sampleLayout.view directoryServer.disk) := by
  have heval : ∀ a < 128, isLink (directoryVolume.fat a) = false := by decide +kernel
  intro a ha hlink
  have hlt : a < 128 := ha.2.trans_le (by decide)
  exact absurd (heval a hlt) (by simpa [directoryVolume] using hlink)

/-- The directory is made, and a name stands twice afterwards when it is D. -/
private theorem makeRequest_served (letter : UInt8) (hpath : (makeRequest letter).path = [letter])
    (hletter : letter ≠ 47) :
    ∃ s', serve arrayDisk.toDevice (fun _ _ => none) directoryServer (makeRequest letter) =
        some (.replied [⟨200, []⟩] s') ∧
      (to83 [68] = to83 (makeRequest letter).path →
        sampleLayout.Ambiguous (sampleLayout.view s'.disk) sampleLayout.rootCluster) := by
  have hc := directoryServer_consistent
  have hroot : 47 ∉ (makeRequest letter).path := by
    rw [hpath]
    simpa using hletter.symm
  have hslot : directoryVolume.freeSlot (sampleLayout.slots [2]) = some ⟨2, 0, 1⟩ := by
    decide +kernel
  have hfree : directoryVolume.firstFree sampleLayout = some 4 := by decide +kernel
  obtain ⟨b, d', V', hres, hV', heffect⟩ := serve_root arrayDisk (fun _ _ => none)
    (s := directoryServer) (makeRequest letter) rfl hc (.inr (.inr (.inl rfl))) hroot
    (Nat.le_of_ble_eq_true rfl)
  cases heffect.make_of rfl with
  | noSpace hf => cases hfree.symm.trans hf
  | full _ hfull => cases hslot.symm.trans hfull
  | added hf hp =>
    obtain rfl := Option.some.inj (hslot.symm.trans hp)
    refine ⟨_, hres, fun hname => ?_⟩
    change sampleLayout.Ambiguous (sampleLayout.view (arrayDisk.sectors d')) _
    rw [hV'.view_eq]
    refine (dir_ambiguous_iff hc.sound directoryVolume_distinct hf hp (to83_length _)
      (to83_first (makeRequest letter).path_no_zero).2).mpr ⟨⟨2, 0, 0⟩, ?_⟩
    have hentry : (directoryVolume.entry ⟨2, 0, 0⟩).isLive = true ∧
        (⟨2, 0, 0⟩ : Slot) ∈ sampleLayout.slots [2] := by
      decide +kernel
    refine ⟨hentry.2, by decide, hentry.1, ?_⟩
    rw [← hname]
    exact congrArg Entry.name directoryVolume_entry

private theorem not_duplicates_of_ne (letter : UInt8)
    (hname : to83 [68] ≠ to83 (makeRequest letter).path) :
    ¬ Duplicates sampleLayout directoryVolume [2] (makeRequest letter) := by
  intro hdup
  cases hdup with
  | made _ _ _ _ hq _ hlive h =>
    rw [directoryVolume_live _ hq hlive, directoryVolume_entry] at h
    exact hname h
  | spelt htype => cases htype

/-- Another directory E next to the directory D. -/
theorem names_stay_distinct_sample :
    ¬ Duplicates sampleLayout directoryVolume [2] (makeRequest 69) ∧
    ∃ s', serve arrayDisk.toDevice (fun _ _ => none) directoryServer (makeRequest 69) =
        some (.replied [⟨200, []⟩] s') ∧
      ¬ sampleLayout.Ambiguous (sampleLayout.view s'.disk) sampleLayout.rootCluster := by
  have hgood := not_duplicates_of_ne 69 (by decide +kernel)
  obtain ⟨s', hserve, -⟩ := makeRequest_served 69 (by decide +kernel) (by decide)
  exact ⟨hgood, s', hserve, (names_stay_distinct_iff (D := arrayDisk) (s := directoryServer)
    (fun _ _ => none) rfl directoryServer_consistent directoryVolume_closed
    directoryVolume_distinct (.inr (.inr (.inl rfl))) (Nat.le_of_ble_eq_true rfl)).mpr hgood _
    ⟨rfl, rfl, rfl⟩ s' hserve⟩

/-- A second directory D is made next to the first one. -/
theorem make_repeats_name :
    sampleLayout.Consistent directoryServer.disk 1 [2] directoryOwn ∧
    ¬ sampleLayout.Ambiguous (sampleLayout.view directoryServer.disk) sampleLayout.rootCluster ∧
    ∃ s', serve arrayDisk.toDevice (fun _ _ => none) directoryServer (makeRequest 68) =
        some (.replied [⟨200, []⟩] s') ∧
      sampleLayout.Ambiguous (sampleLayout.view s'.disk) sampleLayout.rootCluster := by
  obtain ⟨s', hserve, htwice⟩ := makeRequest_served 68 (by decide +kernel) (by decide)
  exact ⟨directoryServer_consistent, directoryVolume_distinct, s', hserve,
    htwice (by decide +kernel)⟩

end Sample

end Mukrn.Fat32
