import Mukrn.Fat32.Chains
import Mukrn.Fat32.Requests

/-! A request is meant to leave every cluster in use on exactly one chain. -/
namespace Mukrn.Fat32
open ByteMemory

/-- No entry of a directory with this chain has a chain of its own. -/
def Volume.Hollow (V : Volume) (L : Layout) (l : List ℕ) : Prop :=
  ∀ q ∈ V.active (L.slots l), (V.entry q).isOwner = true → isLink (V.entry q).cluster = false

/-- The slot holds a live entry with a chain. -/
def Volume.Linking (V : Volume) (t : Slot) : Prop :=
  (V.entry t).isLive = true ∧ isLink (V.entry t).cluster = true

/-- The entries of a directory that ends in its first sector. -/
def sectorEntries (sec : Sector) : List Entry :=
  ((List.range 16).map fun j => readEntry sec (32 * j)).takeWhile fun e => !e.isEnd

/-- Only one slot of the root directory has changed, and what the other slots own is untouched. -/
structure Layout.Replaced (L : Layout) (V V' : Volume) (l : List ℕ) (own : Slot → Set ℕ)
    (t : Slot) : Prop where
  fat : ∀ c ∈ l, V'.fat c = V.fat c
  entry : ∀ q ∈ L.slots l, q ≠ t → V'.entry q = V.entry q
  owned : ∀ q ≠ t, ∀ c ∈ own q, V'.fat c = V.fat c ∧ V'.data c = V.data c
  tidy : V'.Tidy (L.slots l)

section Owned

variable {L : Layout} {V V' : Volume} {k j s c : ℕ} {isDir : Bool} {M : Set ℕ} {l : List ℕ}
  {own : Slot → Set ℕ} {p t : Slot}

/-- An entry owns its chain only, unless it is a directory with chains below it. -/
theorem Layout.Owns.eq_chain_iff (h : L.Owns V k isDir s M) (hl : L.Chain V s l) :
    M = {c | c ∈ l} ↔ (isDir = true → V.Hollow L l) := by
  induction k generalizing isDir s M l with
  | zero =>
    obtain ⟨rfl, l', hl', rfl⟩ := h
    rw [hl.unique hl']
    simp
  | succ k ih =>
    cases isDir with
    | false =>
      obtain ⟨l', hl', rfl⟩ := Layout.Owns.file_iff.mp h
      rw [hl.unique hl']
      simp
    | true =>
      obtain ⟨l', own, hd, rfl⟩ := Layout.Owns.dir_iff.mp h
      obtain rfl := hl.unique hd.chain
      constructor
      · intro heq _ q hq howner
        obtain ⟨lq, hlq, hown⟩ := (hd.owner q hq howner).chain
        cases lq with
        | nil => exact hlq.not_link
        | cons a lq =>
          have ha := hown a (by simp)
          have hal : a ∈ l := by
            have hmem : a ∈ allOf l own := Layout.Sound.mem_allOf_of_own ha
            rw [heq] at hmem
            exact hmem
          exact absurd ha (hd.apart q a hal)
      · intro hhollow
        have hempty (q : Slot) : own q = ∅ := by
          by_cases hact : q ∈ V.active (L.slots l) ∧ (V.entry q).isOwner = true
          · have hno := hhollow rfl q hact.1 hact.2
            have hnil : L.Chain V (V.entry q).cluster [] := .of_not_link hno
            have heq := (ih (hd.owner q hact.1 hact.2) hnil).mpr fun _ r hr => (by cases hr)
            rw [heq]
            simp
          · exact hd.other q hact
        simp [allOf, hempty]

/-- Without a chain nothing is spanned. -/
theorem Layout.Spans.of_not_link (h : isLink s = false) : L.Spans V (k + 1) isDir s ∅ := by
  have hnil : L.Chain V s [] := .of_not_link h
  cases isDir with
  | false => simpa using Layout.Spans.file (k := k + 1) hnil
  | true =>
    have hd : L.Dir V (L.Spans V k) s [] fun _ => ∅ := by
      refine ⟨hnil, fun p hp => (by cases hp), fun _ _ => rfl, fun _ c hc => (by cases hc), ?_⟩
      exact fun _ _ _ => Set.disjoint_empty _
    simpa [allOf] using Layout.Spans.dir hd

namespace Layout.Sound

/-- The slots of the root directory without a chain own nothing. -/
theorem own_eq_empty (h : L.Sound V k l own) (ht : t ∈ L.slots l) (hno : ¬ V.Linking t) :
    own t = ∅ := by
  by_cases hlive : (V.entry t).isLive = true
  · have hlink : isLink (V.entry t).cluster = false := by
      rw [← Bool.not_eq_true]
      exact fun hl => hno ⟨hlive, hl⟩
    have heq := ((h.owns_entry ht hlive).eq_chain_iff (.of_not_link hlink)).mpr
      fun _ r hr => (by cases hr)
    rw [heq]
    simp
  · apply h.root.other
    rintro ⟨-, howner⟩
    simp only [Entry.isOwner, Bool.and_eq_true] at howner
    exact hlive howner.1

/-- The first cluster of a slot with a chain. -/
theorem exists_own (h : L.Sound V k l own) (ht : t ∈ L.slots l) (hlink : V.Linking t) :
    ∃ c, c ∈ own t := by
  obtain ⟨lt, hlt, hown⟩ := (h.owns_entry ht hlink.1).chain
  cases lt with
  | nil =>
    have hno := hlt.not_link
    rw [hlink.2] at hno
    cases hno
  | cons a lt => exact ⟨a, hown a (by simp)⟩

/-- A cluster in one slot's part is in no other part. -/
theorem not_mem_replaced (h : L.Sound V k l own) (hc : c ∈ own t) (hM : c ∉ M) :
    c ∉ allOf l (Function.update own t M) := by
  rintro (hcl | hc')
  · exact h.root.apart t c hcl hc
  · obtain ⟨q, hq⟩ := Set.mem_iUnion.mp hc'
    by_cases hqt : q = t
    · subst hqt
      rw [Function.update_self] at hq
      exact hM hq
    · rw [Function.update_of_ne hqt] at hq
      exact Set.disjoint_left.mp (h.root.disjoint q t hqt) hq hc

/-- All other parts stay. -/
theorem mem_replaced (hc : c ∈ allOf l own) (hct : c ∈ own t → c ∈ M) :
    c ∈ allOf l (Function.update own t M) := by
  rcases hc with hcl | hc
  · exact .inl hcl
  · obtain ⟨q, hq⟩ := Set.mem_iUnion.mp hc
    refine .inr (Set.mem_iUnion.mpr ⟨q, ?_⟩)
    by_cases hqt : q = t
    · subst hqt
      rw [Function.update_self]
      exact hct hq
    · rw [Function.update_of_ne hqt]
      exact hq

theorem mem_new (hc : c ∈ M) : c ∈ allOf l (Function.update own t M) :=
  .inr (Set.mem_iUnion.mpr ⟨t, by rw [Function.update_self]; exact hc⟩)

/-- The root directory spans its clusters, also when one slot has got other ones. -/
theorem spans (h : L.Sound V k l own) : L.Spans V (k + 1) true L.rootCluster (allOf l own) :=
  h.owns.spans (Nat.le_refl _)

theorem spans_replaced (h : L.Sound V k l own) (hr : L.Replaced V V' l own t) (hj : k ≤ j)
    (hnew : t ∈ V'.active (L.slots l) → (V'.entry t).isOwner = true →
      L.Spans V' j (V'.entry t).isDir (V'.entry t).cluster M)
    (hnone : ¬ (t ∈ V'.active (L.slots l) ∧ (V'.entry t).isOwner = true) → M = ∅)
    (hfresh : ∀ c ∈ M, V.fat c = 0) :
    L.Spans V' (j + 1) true L.rootCluster (allOf l (Function.update own t M)) := by
  have hused (c : ℕ) (hc : c ∈ M) : c ∉ allOf l own := h.not_mem_of_free (hfresh c hc)
  apply Layout.Spans.dir
  apply h.root.replace h.tidy hr.fat hr.entry hr.tidy
  · exact fun q hq b s hs => (hs.congr (hr.owned q hq)).spans hj
  · exact hnew
  · exact hnone
  · exact fun c hc hm => hused c hm (.inl hc)
  · intro q _
    rw [Set.disjoint_left]
    exact fun c hm hc => hused c hm (mem_allOf_of_own hc)

/-- A table and clusters in use that are as before. -/
theorem exactlyOne_congr (h : L.Sound V k l own) (hone : L.ExactlyOne V)
    (hfat : V'.fat = V.fat) (hdata : ∀ c, V.fat c ≠ 0 → V'.data c = V.data c) :
    L.ExactlyOne V' := by
  have hS' : L.Sound V' k l own := by
    apply h.congr
    intro c hc
    rw [hfat]
    exact ⟨rfl, hdata c (h.owns.used c hc).2⟩
  rw [hS'.spans.exactlyOne_iff hS'.root.chain, hfat]
  exact (h.spans.exactlyOne_iff h.root.chain).mp hone

end Layout.Sound

end Owned

section Requests

variable {L : Layout} {V V' V₁ : Volume} {k j c len start : ℕ} {l lp lnew lkeep : List ℕ}
  {own : Slot → Set ℕ} {name : List UInt8} {p : Slot} {e : Mem} {data : ℕ → UInt8}

theorem first_deleted (V : Volume) (p : Slot) : ((V.deleted p).entry p).first = 0xE5 := by
  rw [Volume.entry, readEntry_first]
  simp [Volume.deleted, Volume.setSlot]

theorem entry_deleted_of_ne (V : Volume) {q : Slot} (h : q ≠ p) :
    (V.deleted p).entry q = V.entry q := by
  rw [Volume.deleted, Volume.entry_setSlot fun j hj => readEntry_delete_of_ne hj .., if_neg h]

/-- A deleted entry has no chain of its own. -/
theorem deleted_not_owner (V : Volume) (p : Slot) (lfree : List ℕ) :
    (((V.deleted p).free lfree).entry p).isLive = false ∧
      (((V.deleted p).free lfree).entry p).isOwner = false := by
  have hfirst : (((V.deleted p).free lfree).entry p).first = 0xE5 := first_deleted V p
  simp [Entry.isOwner, Entry.isLive, Entry.isFree, hfirst]

/-- A deleted entry is passed over, it does not end the directory. -/
theorem isEnd_deleted {ps : List Slot} (hp : V.find name ps = some p) (lfree : List ℕ) (q : Slot) :
    (((V.deleted p).free lfree).entry q).isEnd = (V.entry q).isEnd := by
  by_cases hq : q = p
  · subst hq
    have hfirst : (((V.deleted q).free lfree).entry q).first = 0xE5 := first_deleted V q
    rw [Volume.not_end_of_active (Volume.find_spec hp).1, Entry.isEnd, hfirst]
    rfl
  · exact congrArg Entry.isEnd (entry_deleted_of_ne V hq)

theorem mem_own_of_released (hS : L.Sound V k l own) (hp : V.find name (L.slots l) = some p)
    (hlp : L.Chain V (V.entry p).cluster lp) (hc : c ∈ (V.entry p).released lp) : c ∈ own p := by
  unfold Entry.released at hc
  split at hc
  · cases hc
  · exact mem_own_of_chain hS hp hlp hc

theorem deleted_replaced (hS : L.Sound V k l own) (hp : V.find name (L.slots l) = some p)
    (hlp : L.Chain V (V.entry p).cluster lp) :
    L.Replaced V ((V.deleted p).free ((V.entry p).released lp)) l own p := by
  have hfat {c : ℕ} (hc : c ∉ own p) :
      ((V.deleted p).free ((V.entry p).released lp)).fat c = V.fat c := by
    rw [Volume.free_fat, if_neg fun hr => hc (mem_own_of_released hS hp hlp hr)]
    rfl
  constructor
  · exact fun c hc => hfat (hS.root.apart p c hc)
  · exact fun q _ hq => entry_deleted_of_ne V hq
  · intro q hq c hc
    constructor
    · exact hfat (Set.disjoint_left.mp (hS.root.disjoint q p hq) hc)
    · apply data_setSlot_of_ne
      rintro rfl
      exact hS.root.apart q _ (Layout.mem_slots.mp (Volume.find_mem hp)).1 hc
  · exact hS.tidy.congr fun q _ => isEnd_deleted hp _ q

/-- Deleting an entry loses clusters when it is a directory with a chain. -/
theorem deleted_exactlyOne_iff (hS : L.Sound V k l own) (hone : L.ExactlyOne V)
    (hp : V.find name (L.slots l) = some p) (hlp : L.Chain V (V.entry p).cluster lp) :
    L.ExactlyOne ((V.deleted p).free ((V.entry p).released lp)) ↔
      ¬ ((V.entry p).isDir = true ∧ isLink (V.entry p).cluster = true) := by
  have hmem := Volume.find_mem hp
  have hlive := (Layout.Sound.live_of_named (Volume.find_spec hp).2).1
  have howns := hS.owns_entry hmem hlive
  have hcover := (hS.spans.exactlyOne_iff hS.root.chain).mp hone
  have hr := deleted_replaced hS hp hlp
  have hfat {c : ℕ} (hc : c ∉ (V.entry p).released lp) :
      ((V.deleted p).free ((V.entry p).released lp)).fat c = V.fat c := by
    rw [Volume.free_fat, if_neg hc]
    rfl
  have hspans : L.Spans ((V.deleted p).free ((V.entry p).released lp)) (k + 1) true L.rootCluster
      (allOf l (Function.update own p ∅)) := by
    apply hS.spans_replaced hr (Nat.le_refl _)
    · intro _ howner
      rw [(deleted_not_owner ..).2] at howner
      cases howner
    · exact fun _ => rfl
    · exact fun c hc => (by cases hc)
  rw [hspans.exactlyOne_iff (hS.root.chain.congr hr.fat)]
  constructor
  · rintro hall ⟨hdir, hlink⟩
    obtain ⟨c, hc⟩ := hS.exists_own hmem ⟨hlive, hlink⟩
    have hused := howns.used c hc
    have hnil : (V.entry p).released lp = [] := if_pos hdir
    refine hS.not_mem_replaced hc (Set.notMem_empty c) (hall c hused.1 ?_)
    rw [hfat (by rw [hnil]; exact List.not_mem_nil)]
    exact hused.2
  · intro hno c hcl hused
    have hout : c ∉ (V.entry p).released lp := fun hr => hused (by rw [Volume.free_fat, if_pos hr])
    rw [hfat hout] at hused
    refine Layout.Sound.mem_replaced (hcover c hcl hused) fun hc => ?_
    by_cases hdir : (V.entry p).isDir = true
    · rw [hS.own_eq_empty hmem fun hl => hno ⟨hdir, hl.2⟩] at hc
      exact hc
    · rw [(howns.eq_chain_iff hlp).mpr fun h => absurd h hdir] at hc
      rw [Entry.released, if_neg hdir] at hout
      exact absurd hc hout

theorem added_replaced (hS : L.Sound V k l own) (hx : V.Extends V₁)
    (hp : V.freeSlot (L.slots l) = some p) (he : (readEntry e 0).isEnd = false) :
    L.Replaced V (V₁.added (p.target L.rootCluster) e) l own (p.target L.rootCluster) := by
  constructor
  · exact fun c hc => added_fat hS hx hc _
  · exact fun q hq hqt => entry_added_of_ne hS hx hq hqt
  · exact fun q _ c hc => added_agree hS hx hp hc
  · exact tidy_added hS hx hp he

/-- A new entry loses clusters when it takes the place of one with a chain, or when it does not
lead to the clusters taken for it. -/
theorem added_exactlyOne_iff (hS : L.Sound V k l own) (hone : L.ExactlyOne V) (hx : V.Extends V₁)
    (hp : V.freeSlot (L.slots l) = some p) (he : (readEntry e 0).isEnd = false)
    (hfresh : ∀ a ∈ lnew, L.IsCluster a ∧ V.fat a = 0)
    (hfat : ∀ a, V₁.fat a ≠ 0 ↔ V.fat a ≠ 0 ∨ a ∈ lnew) (hj : k ≤ j)
    (hspan : (readEntry e 0).isOwner = true → L.Spans (V₁.added (p.target L.rootCluster) e) j
      (readEntry e 0).isDir (readEntry e 0).cluster {a | a ∈ lnew}) :
    L.ExactlyOne (V₁.added (p.target L.rootCluster) e) ↔
      ¬ V.Linking (p.target L.rootCluster) ∧
        (lnew ≠ [] → (readEntry e 0).isOwner = true) := by
  have hmem := mem_slots_target hS.root.chain hp
  have hcover := (hS.spans.exactlyOne_iff hS.root.chain).mp hone
  have hr := added_replaced hS hx hp he
  have hentry : (V₁.added (p.target L.rootCluster) e).entry (p.target L.rootCluster) =
      readEntry e 0 := by
    rw [entry_added, if_pos rfl]
  have hspans : L.Spans (V₁.added (p.target L.rootCluster) e) (j + 1) true L.rootCluster
      (allOf l (Function.update own (p.target L.rootCluster)
        {a | a ∈ lnew ∧ (readEntry e 0).isOwner = true})) := by
    apply hS.spans_replaced hr hj
    · intro _ howner
      rw [hentry] at howner ⊢
      simpa [howner] using hspan howner
    · intro hno
      rw [hr.tidy.mem_active, hentry] at hno
      have howner : ¬ (readEntry e 0).isOwner = true := fun h => hno ⟨⟨hmem, he⟩, h⟩
      simp [howner]
    · exact fun c hc => (hfresh c hc.1).2
  rw [hspans.exactlyOne_iff (hS.root.chain.congr hr.fat)]
  constructor
  · intro hall
    constructor
    · intro hlink
      obtain ⟨c, hc⟩ := hS.exists_own hmem hlink
      obtain ⟨hcl, hused⟩ := hS.owns.used c (Layout.Sound.mem_allOf_of_own hc)
      refine hS.not_mem_replaced hc ?_ (hall c hcl ((hfat c).mpr (.inl hused)))
      exact fun hm => hused (hfresh c hm.1).2
    · intro hne
      obtain ⟨c, lnew, rfl⟩ := List.exists_cons_of_ne_nil hne
      obtain ⟨hcl, hfree⟩ := hfresh c (by simp)
      by_contra howner
      have hin := hall c hcl ((hfat c).mpr (.inr (by simp)))
      refine hS.not_mem_of_free hfree ?_
      rcases hin with hin | hin
      · exact .inl hin
      · obtain ⟨q, hq⟩ := Set.mem_iUnion.mp hin
        by_cases hqt : q = p.target L.rootCluster
        · rw [hqt, Function.update_self] at hq
          exact absurd hq.2 howner
        · rw [Function.update_of_ne hqt] at hq
          exact Layout.Sound.mem_allOf_of_own hq
  · rintro ⟨hno, howner⟩ c hcl hused
    rcases (hfat c).mp hused with hold | hnew
    · refine Layout.Sound.mem_replaced (hcover c hcl hold) fun hc => ?_
      rw [hS.own_eq_empty hmem hno] at hc
      cases hc
    · exact Layout.Sound.mem_new ⟨hnew, howner (List.ne_nil_of_mem hnew)⟩

/-- The clusters in use apart from the chain that is given back. -/
theorem overwritten_fat_used {lfree : List ℕ} (hx : V.Extends V₁) (hfree : ∀ a ∈ lfree, V.fat a = 0)
    (hc : V.fat c ≠ 0) (hclp : c ∉ lp) :
    ((V₁.overwritten p lp start len).free lfree).fat c = V.fat c := by
  rw [Volume.free_fat, if_neg fun hm => hc (hfree c hm), Volume.overwritten, Volume.setSlot_fat,
    Volume.free_fat, if_neg hclp, (hx c hc).1]

theorem entry_overwritten_self (hS : L.Sound V k l own) (hx : V.Extends V₁) (hp : p ∈ L.slots l)
    (hstart : start < 2 ^ 32) (lp lfree : List ℕ) (len : ℕ) :
    ((V₁.overwritten p lp start len).free lfree).entry p =
      { V.entry p with cluster := start, size := len % 2 ^ 32 } := by
  change (V₁.overwritten p lp start len).entry p = _
  rw [entry_overwritten, if_pos rfl, hx.entry_eq hS.root.chain hp, Nat.mod_eq_of_lt hstart]

theorem overwritten_replaced {lfree : List ℕ} (hS : L.Sound V k l own) (hx : V.Extends V₁)
    (hp : V.find name (L.slots l) = some p) (hlp : L.Chain V (V.entry p).cluster lp)
    (hstart : start < 2 ^ 32) (hfree : ∀ a ∈ lfree, V.fat a = 0) (len : ℕ) :
    L.Replaced V ((V₁.overwritten p lp start len).free lfree) l own p := by
  have hother (q : Slot) (hq : q ∈ L.slots l) (hqp : q ≠ p) :
      ((V₁.overwritten p lp start len).free lfree).entry q = V.entry q := by
    change (V₁.overwritten p lp start len).entry q = _
    rw [entry_overwritten, if_neg hqp, hx.entry_eq hS.root.chain hq]
  constructor
  · intro c hc
    apply overwritten_fat_used hx hfree (hS.root.chain.used c hc).2
    exact fun hm => hS.root.apart p c hc (mem_own_of_chain hS hp hlp hm)
  · exact hother
  · intro q hqp c hc
    have hused := (hS.owns.used c (Layout.Sound.mem_allOf_of_own hc)).2
    refine ⟨overwritten_fat_used hx hfree hused fun hm => ?_,
      (overwritten_agree hS hx hp hlp hqp hc).2⟩
    exact Set.disjoint_left.mp (hS.root.disjoint q p hqp) hc (mem_own_of_chain hS hp hlp hm)
  · apply hS.tidy.congr
    intro q hq
    by_cases hqp : q = p
    · rw [hqp, entry_overwritten_self hS hx (Volume.find_mem hp) hstart]
      rfl
    · rw [hother q hq hqp]

/-- An entry that gets other clusters loses those of the files and directories below it. -/
theorem overwritten_exactlyOne_iff {lfree : List ℕ} (hS : L.Sound V k l own)
    (hone : L.ExactlyOne V) (hx : V.Extends V₁) (hp : V.find name (L.slots l) = some p)
    (hlp : L.Chain V (V.entry p).cluster lp) (hstart : start < 2 ^ 32)
    (hfree : ∀ a ∈ lfree, V.fat a = 0) (hfresh : ∀ a ∈ lkeep, V.fat a = 0)
    (hkeep : ∀ a, V.fat a = 0 → ((V₁.overwritten p lp start len).free lfree).fat a ≠ 0 → a ∈ lkeep)
    (hj : k ≤ j) (hspan : L.Spans ((V₁.overwritten p lp start len).free lfree) j (V.entry p).isDir
      start {a | a ∈ lkeep}) :
    L.ExactlyOne ((V₁.overwritten p lp start len).free lfree) ↔
      ((V.entry p).isDir = true → V.Hollow L lp) := by
  have hmem := Volume.find_mem hp
  have hlive := (Layout.Sound.live_of_named (Volume.find_spec hp).2).1
  have howns := hS.owns_entry hmem hlive
  obtain ⟨hact, howner⟩ := hS.active_of_live hmem hlive
  have hcover := (hS.spans.exactlyOne_iff hS.root.chain).mp hone
  have hr := overwritten_replaced hS hx hp hlp hstart hfree len
  have hentry := entry_overwritten_self hS hx hmem hstart lp lfree len
  have hspans : L.Spans ((V₁.overwritten p lp start len).free lfree) (j + 1) true L.rootCluster
      (allOf l (Function.update own p {a | a ∈ lkeep})) := by
    apply hS.spans_replaced hr hj
    · intro _ _
      rw [hentry]
      exact hspan
    · intro hno
      refine absurd ⟨hr.tidy.mem_active.mpr ⟨hmem, ?_⟩, ?_⟩ hno
      · rw [hentry]
        exact Volume.not_end_of_active hact
      · rw [hentry]
        exact howner
    · exact hfresh
  rw [hspans.exactlyOne_iff (hS.root.chain.congr hr.fat), ← howns.eq_chain_iff hlp]
  constructor
  · intro hall
    apply Set.Subset.antisymm
    · intro c hc
      by_contra hclp
      obtain ⟨hcl, hused⟩ := howns.used c hc
      refine hS.not_mem_replaced hc (fun hm => hused (hfresh c hm)) (hall c hcl ?_)
      rw [overwritten_fat_used hx hfree hused hclp]
      exact hused
    · exact fun c hc => mem_own_of_chain hS hp hlp hc
  · intro heq c hcl hused
    by_cases hold : V.fat c = 0
    · exact Layout.Sound.mem_new (hkeep c hold hused)
    · refine Layout.Sound.mem_replaced (hcover c hcl hold) fun hc => ?_
      have hclp : c ∈ lp := by
        rw [heq] at hc
        exact hc
      refine absurd ?_ hused
      rw [Volume.free_fat, if_neg fun hm => hold (hfree c hm), Volume.overwritten,
        Volume.setSlot_fat, Volume.free_fat, if_pos hclp]

end Requests

section Sectors

variable {L : Layout} {V : Volume} {k c : ℕ} {sec : Sector} {e : Entry}

/-- A directory whose first sector has an end mark does not go on behind that sector. -/
theorem active_single (hdata : V.data c 0 = sec) (hend : (readEntry sec 64).isEnd = true) :
    V.active (L.slots [c]) = V.active (sectorSlots c 0) := by
  obtain ⟨rest, hrest⟩ := L.slots_first c []
  have hmem : (⟨c, 0, 2⟩ : Slot) ∈ sectorSlots c 0 := List.mem_map.mpr ⟨2, by simp, rfl⟩
  have hslot : (V.entry ⟨c, 0, 2⟩).isEnd = true := by
    rw [Volume.entry, hdata]
    exact hend
  rw [hrest, Volume.active, Volume.active, List.takeWhile_append, if_neg]
  intro hlen
  have hall := List.takeWhile_eq_self_iff.mp
    ((List.takeWhile_prefix (fun p => !(V.entry p).isEnd)).eq_of_length hlen) _ hmem
  rw [hslot] at hall
  cases hall

theorem map_active (hdata : V.data c 0 = sec) :
    (V.active (sectorSlots c 0)).map V.entry = sectorEntries sec := by
  rw [Volume.active, sectorEntries, sectorSlots, List.takeWhile_map, List.map_map,
    List.takeWhile_map]
  have hentry : V.entry ∘ Slot.mk c 0 = fun j => readEntry sec (32 * j) := by
    funext j
    rw [Function.comp_apply, Volume.entry, hdata]
  have htest : (fun p => !(V.entry p).isEnd) ∘ Slot.mk c 0 =
      (fun e => !e.isEnd) ∘ fun j => readEntry sec (32 * j) := by
    rw [← hentry]
    rfl
  rw [htest, hentry]

/-- The entries of such a directory are those in its first sector. -/
theorem entry_mem_sectorEntries (hdata : V.data c 0 = sec) (hend : (readEntry sec 64).isEnd = true)
    {q : Slot} (hq : q ∈ V.active (L.slots [c])) : V.entry q ∈ sectorEntries sec := by
  rw [active_single hdata hend] at hq
  rw [← map_active hdata]
  exact List.mem_map.mpr ⟨q, hq, rfl⟩

theorem exists_slot_of_mem (hdata : V.data c 0 = sec) (hend : (readEntry sec 64).isEnd = true)
    (he : e ∈ sectorEntries sec) :
    ∃ q ∈ V.active (L.slots [c]), V.entry q = e ∧ q.cluster = c := by
  rw [← map_active hdata] at he
  obtain ⟨q, hq, rfl⟩ := List.mem_map.mp he
  rw [← active_single (L := L) hdata hend] at hq
  have hc := (Layout.mem_slots.mp (Volume.mem_of_active hq)).1
  exact ⟨q, hq, rfl, List.mem_singleton.mp hc⟩

/-- A directory of one cluster whose entries lead to no cluster in use. -/
theorem spans_single (hc : L.Chain V c [c]) (hdata : V.data c 0 = sec)
    (hend : (readEntry sec 64).isEnd = true)
    (hno : ∀ e ∈ sectorEntries sec, e.isOwner = true → V.fat e.cluster = 0) :
    L.Spans V (k + 2) true c {a | a ∈ [c]} := by
  have hd : L.Dir V (L.Spans V (k + 1)) c [c] fun _ => ∅ := by
    refine ⟨hc, ?_, fun _ _ => rfl, fun _ _ _ => Set.notMem_empty _,
      fun _ _ _ => Set.disjoint_empty _⟩
    intro q hq howner
    have hfree := hno _ (entry_mem_sectorEntries hdata hend hq) howner
    cases hlink : isLink (V.entry q).cluster with
    | false => exact .of_not_link hlink
    | true =>
      apply Layout.Spans.lost
      intro lq hlq
      cases lq with
      | nil =>
        rw [hlq.not_link] at hlink
        cases hlink
      | cons a lq =>
        obtain ⟨heq, -, hused, -⟩ := Layout.Chain.cons_iff.mp hlq
        rw [heq] at hfree
        exact hused hfree
  have hall : allOf [c] (fun _ => ∅) = {a | a ∈ [c]} := by simp [allOf]
  rw [← hall]
  exact .dir hd

private theorem dotSector_first (new parent : ℕ) :
    (readEntry (dotSector new parent) 0).first = 46 ∧
      (readEntry (dotSector new parent) 32).first = 46 ∧
      (readEntry (dotSector new parent) 64).first = 0 := by
  refine ⟨?_, ?_, ?_⟩ <;> rw [readEntry_first] <;> simp [dotSector, store, fill]

theorem dotSector_end (new parent : ℕ) :
    (readEntry (dotSector new parent) 64).isEnd = true := by
  rw [Entry.isEnd, (dotSector_first new parent).2.2]
  rfl

theorem sectorEntries_dotSector (new parent : ℕ) : sectorEntries (dotSector new parent) =
    [readEntry (dotSector new parent) 0, readEntry (dotSector new parent) 32] := by
  obtain ⟨h0, h1, -⟩ := dotSector_first new parent
  have hrange : List.range 16 = 0 :: 1 :: 2 :: List.range' 3 13 := by decide
  have hend0 : (readEntry (dotSector new parent) (32 * 0)).isEnd = false := by
    rw [Entry.isEnd, h0]
    rfl
  have hend1 : (readEntry (dotSector new parent) (32 * 1)).isEnd = false := by
    rw [Entry.isEnd, h1]
    rfl
  have hend2 : (readEntry (dotSector new parent) (32 * 2)).isEnd = true := dotSector_end new parent
  rw [sectorEntries, hrange, List.map_cons, List.map_cons, List.map_cons, List.takeWhile_cons,
    hend0, List.takeWhile_cons, hend1, List.takeWhile_cons, hend2]
  rfl

/-- A new directory has no entries of its own. -/
theorem dotSector_entries (new parent : ℕ) :
    ∀ e ∈ sectorEntries (dotSector new parent), e.isOwner = false := by
  obtain ⟨h0, h1, -⟩ := dotSector_first new parent
  intro e he
  have hdot (e : Entry) (h : e.first = 46) : e.isOwner = false := by
    simp [Entry.isOwner, Entry.isDot, h]
  rw [sectorEntries_dotSector] at he
  rcases List.mem_cons.mp he with rfl | he
  · exact hdot _ h0
  · rw [List.mem_singleton.mp he]
    exact hdot _ h1

end Sectors

section Broken

variable {L : Layout} {V V₁ : Volume} {k c len start : ℕ} {l lp lnew : List ℕ}
  {own : Slot → Set ℕ} {name : List UInt8} {p : Slot} {data : ℕ → UInt8} {e : Entry}

theorem dataSector_end (data : ℕ → UInt8) (hlen : len ≤ 64) :
    (readEntry (dataSector data 0 len) 64).isEnd = true := by
  rw [Entry.isEnd, readEntry_first, dataSector, if_neg (by omega)]
  rfl

/-- The new contents of an entry, and the chain they are in. -/
theorem overwritten_contents (hS : L.Sound V k l own) (hpos : 0 < len)
    (hs : Stored L V data len c lnew V₁) (hp : V.find name (L.slots l) = some p)
    (hlp : L.Chain V (V.entry p).cluster lp) :
    L.Chain (V₁.overwritten p lp c len) c [c] ∧
      (V₁.overwritten p lp c len).data c 0 = dataSector data 0 len := by
  obtain ⟨hcl, hdata⟩ := hs.data_eq hpos
  have hfree := hs.start_free hpos
  constructor
  · apply Layout.Chain.single hcl
    have hout : c ∉ lp := fun hm => (hlp.used c hm).2 hfree
    rw [Volume.overwritten, Volume.setSlot_fat, Volume.free_fat, if_neg hout]
    cases hs with
    | none => cases hpos
    | some => simp [Volume.stored]
  · have hne : c ≠ p.cluster := by
      rintro rfl
      exact (hS.root.chain.used _ (Layout.mem_slots.mp (Volume.find_mem hp)).1).2 hfree
    rw [Volume.overwritten, data_setSlot_of_ne _ _ _ hne]
    exact hdata

/-- A directory overwritten with data that spells an entry for a cluster in use. -/
theorem not_exactlyOne_of_spelt (hS : L.Sound V k l own) (hone : L.ExactlyOne V) (hpos : 0 < len)
    (hlen : len ≤ 64) (hs : Stored L V data len c lnew V₁)
    (hp : V.find name (L.slots l) = some p) (hdir : (V.entry p).isDir = true)
    (hlp : L.Chain V (V.entry p).cluster lp) (hhollow : V.Hollow L lp)
    (he : e ∈ sectorEntries (dataSector data 0 len)) (howner : e.isOwner = true)
    (hu : e.cluster = c ∨ L.IsCluster e.cluster ∧ V.fat e.cluster ≠ 0 ∧ e.cluster ∉ lp) :
    ¬ L.ExactlyOne (V₁.overwritten p lp c len) := by
  have hmem := Volume.find_mem hp
  have hlive := (Layout.Sound.live_of_named (Volume.find_spec hp).2).1
  have hfree := hs.start_free hpos
  have hcover := (hS.spans.exactlyOne_iff hS.root.chain).mp hone
  obtain ⟨hchain, hdata⟩ := overwritten_contents hS hpos hs hp hlp
  have hroot : L.Chain (V₁.overwritten p lp c len) L.rootCluster l :=
    hS.root.chain.congr fun a ha => overwritten_fat hS hs.agree hp hlp ha
  have hentry : (V₁.overwritten p lp c len).entry p =
      { V.entry p with cluster := c, size := len % 2 ^ 32 } := by
    rw [entry_overwritten, if_pos rfl, hs.agree.entry_eq hS.root.chain hmem,
      Nat.mod_eq_of_lt hs.start_lt]
  have hactive := active_overwritten hS.root.chain hs.agree hmem lp c len
  have hact : p ∈ (V₁.overwritten p lp c len).active (L.slots l) := by
    rw [hactive]
    exact (Volume.find_spec hp).1
  have howner' : ((V₁.overwritten p lp c len).entry p).isOwner = true := by
    rw [hentry]
    exact (hS.active_of_live hmem hlive).2
  have hdir' : ((V₁.overwritten p lp c len).entry p).isDir = true := by
    rw [hentry]
    exact hdir
  -- the spelt entry `q` is below the directory
  obtain ⟨q, hq, hqe, hqc⟩ := exists_slot_of_mem (L := L) hdata (dataSector_end data hlen) he
  have hunder : L.Under (V₁.overwritten p lp c len) L.rootCluster q := by
    refine .deeper hroot hact howner' hdir' ?_
    rw [hentry]
    exact .here hchain hq (by rw [hqe]; exact howner)
  have honq {lu : List ℕ} (hlu : L.Chain (V₁.overwritten p lp c len) e.cluster lu)
      (hin : e.cluster ∈ lu) : L.OnChain (V₁.overwritten p lp c len) (some q) e.cluster :=
    ⟨hunder, lu, by rw [hqe]; exact hlu, hin⟩
  intro hone'
  have htwo {o : Option Slot} {lu : List ℕ} (ho : L.OnChain (V₁.overwritten p lp c len) o e.cluster)
      (hlu : L.Chain (V₁.overwritten p lp c len) e.cluster lu) (hin : e.cluster ∈ lu) :
      o = some q := by
    obtain ⟨hcl, hused⟩ := hlu.used _ hin
    exact (hone' e.cluster hcl hused).unique ho (honq hlu hin)
  rcases hu with hu | ⟨hcl, hused, hout⟩
  · rw [hu] at htwo
    have hpq : p = q := by
      refine Option.some.inj (htwo (o := some p) ⟨.here hroot hact howner', [c], ?_, ?_⟩ hchain ?_)
      · rw [hentry]
        exact hchain
      · simp
      · simp
    rw [← hpq] at hqc
    exact (hS.root.chain.used _ (Layout.mem_slots.mp hmem).1).2 (hqc ▸ hfree)
  · rcases hcover e.cluster hcl hused with hin | hin
    · obtain ⟨lu, hlu, hin'⟩ := hroot.from_mem hin
      exact Option.some_ne_none q (htwo (o := none) ⟨l, hroot, hin⟩ hlu hin').symm
    · obtain ⟨r, hr⟩ := Set.mem_iUnion.mp hin
      have hrp : r ≠ p := by
        rintro rfl
        rw [((hS.owns_entry hmem hlive).eq_chain_iff hlp).mpr fun _ => hhollow] at hr
        exact hout hr
      by_cases hrown : r ∈ V.active (L.slots l) ∧ (V.entry r).isOwner = true
      · have howns : L.Owns (V₁.overwritten p lp c len) k (V.entry r).isDir (V.entry r).cluster
            (own r) := (hS.root.owner r hrown.1 hrown.2).congr fun a ha =>
          overwritten_agree hS hs.agree hp hlp hrp ha
        have hspans := howns.spans (Nat.le_refl k)
        have hrmem := Volume.mem_of_active hrown.1
        have hrentry : (V₁.overwritten p lp c len).entry r = V.entry r := by
          rw [entry_overwritten, if_neg hrp, hs.agree.entry_eq hS.root.chain hrmem]
        have hract : r ∈ (V₁.overwritten p lp c len).active (L.slots l) := by
          rw [hactive]
          exact hrown.1
        have hrowner : ((V₁.overwritten p lp c len).entry r).isOwner = true := by
          rw [hrentry]
          exact hrown.2
        rcases hspans.exists_chain hr with ⟨lr, hlr, hin'⟩ | ⟨hrdir, r', hr', lr, hlr, hin'⟩
        · obtain ⟨lu, hlu, hu⟩ := hlr.from_mem hin'
          have hon : L.OnChain (V₁.overwritten p lp c len) (some r) e.cluster :=
            ⟨.here hroot hract hrowner, lr, by rw [hrentry]; exact hlr, hin'⟩
          rw [← Option.some.inj (htwo hon hlu hu)] at hqc
          exact (hS.root.chain.used _ (Layout.mem_slots.mp hrmem).1).2 (hqc ▸ hfree)
        · obtain ⟨lu, hlu, hu⟩ := hlr.from_mem hin'
          have hr'' : L.Under (V₁.overwritten p lp c len)
              ((V₁.overwritten p lp c len).entry r).cluster r' := by
            rw [hrentry]
            exact hr'
          have hon : L.OnChain (V₁.overwritten p lp c len) (some r') e.cluster :=
            ⟨.deeper hroot hract hrowner (by rw [hrentry]; exact hrdir) hr'', lr, hlr, hin'⟩
          rw [← Option.some.inj (htwo hon hlu hu)] at hqc
          rw [hrdir] at hspans
          obtain ⟨ls, hls⟩ := hr'.chain
          have hslot := (hspans.under_mem hr' hls).1
          rw [hqc] at hslot
          exact (hS.owns.used c (Layout.Sound.mem_allOf_of_own hslot)).2 hfree
      · rw [hS.root.other r hrown] at hr
        cases hr

/-- No chain leads to a cluster that was free. -/
theorem not_link_to_free (hone : L.ExactlyOne V) {b : ℕ}
    (hcl : L.IsCluster c) (hfree : V.fat c = 0) (hb : L.IsCluster b) : V.fat b ≠ c := by
  intro hlink
  have hused : V.fat b ≠ 0 := by
    rw [hlink]
    have := hcl.1
    omega
  obtain ⟨o, ho⟩ := (hone b hb hused).exists
  have hout {s : ℕ} {lb : List ℕ} (hlb : L.Chain V s lb) (hin : b ∈ lb) : False := by
    have hnext := hlb.next_mem hin (by rw [hlink]; exact hcl.isLink)
    rw [hlink] at hnext
    exact (hlb.used c hnext).2 hfree
  cases o with
  | none =>
    obtain ⟨lb, hlb, hin⟩ := ho
    exact hout hlb hin
  | some q =>
    obtain ⟨-, lb, hlb, hin⟩ := ho
    exact hout hlb hin

/-- A first cluster that does not fit the low half of its number is lost. -/
theorem not_exactlyOne_of_high (hS : L.Sound V k l own) (hone : L.ExactlyOne V) (hpos : 0 < len)
    (hs : Stored L V data len start lnew V₁) (hp : V.freeSlot (L.slots l) = some p)
    (hn : name.length = 11) (h0 : name.getD 0 0 ≠ 0) (hhigh : 2 ^ 16 ≤ start) :
    ¬ L.ExactlyOne (V₁.added (p.target L.rootCluster) (fileEntry name start len)) := by
  have hfree := hs.start_free hpos
  have hcl := (hs.data_eq hpos).1
  have hend := (isNamed_fileEntry hn h0 start len []).1
  have htidy := tidy_added hS hs.agree hp hend
  have heoc : V₁.fat start = eoc := by
    cases hs with
    | none => cases hpos
    | some => simp [Volume.stored]
  have hfat {b : ℕ} (hb : b ≠ start) : V₁.fat b = V.fat b := by
    cases hs with
    | none => rfl
    | some => simp [Volume.stored, hb]
  have hroot : L.Chain (V₁.added (p.target L.rootCluster) (fileEntry name start len)) L.rootCluster
      l := hS.root.chain.congr fun c hc => added_fat hS hs.agree hc _
  have hentry : (V₁.added (p.target L.rootCluster) (fileEntry name start len)).entry
      (p.target L.rootCluster) = ⟨name, 0x20, start % 2 ^ 16, len % 2 ^ 32⟩ := by
    rw [entry_added, if_pos rfl, readEntry_fileEntry hn]
  -- all other entries of the root directory span what they owned before
  have hother {q : Slot}
      (hq : q ∈ (V₁.added (p.target L.rootCluster) (fileEntry name start len)).active (L.slots l))
      (howner : ((V₁.added (p.target L.rootCluster) (fileEntry name start len)).entry q).isOwner =
        true) (hqt : q ≠ p.target L.rootCluster) :
      L.Spans (V₁.added (p.target L.rootCluster) (fileEntry name start len)) k
        ((V₁.added (p.target L.rootCluster) (fileEntry name start len)).entry q).isDir
        ((V₁.added (p.target L.rootCluster) (fileEntry name start len)).entry q).cluster
        (own q) := by
    obtain ⟨hm, hqend⟩ := htidy.mem_active.mp hq
    rw [entry_added_of_ne hS hs.agree hm hqt] at howner hqend ⊢
    have howns := hS.root.owner q (hS.tidy.mem_active.mpr ⟨hm, hqend⟩) howner
    exact (howns.congr fun a ha => added_agree hS hs.agree hp ha).spans (Nat.le_refl k)
  have hnot {q : Slot} (hc : start ∈ own q) : False :=
    hS.not_mem_of_free hfree (Layout.Sound.mem_allOf_of_own hc)
  intro hone'
  obtain ⟨o, ho⟩ := (hone' start hcl (by
    change V₁.fat start ≠ 0
    rw [heoc]
    decide)).exists
  cases o with
  | none =>
    obtain ⟨l', hl', hin⟩ := ho
    obtain rfl := hroot.unique hl'
    exact (hS.root.chain.used start hin).2 hfree
  | some q =>
    obtain ⟨hq, lq, hlq, hin⟩ := ho
    cases hq with
    | here hl' hq howner =>
      obtain rfl := hroot.unique hl'
      by_cases hqt : q = p.target L.rootCluster
      · rw [hqt, hentry] at hlq
        rcases hlq.eq_or_pred hin with heq | ⟨b, hb, hlink⟩
        · change start = start % 2 ^ 16 at heq
          omega
        · have hbs : b ≠ start := by
            rintro rfl
            change V₁.fat b = b at hlink
            rw [heoc] at hlink
            have hlt := hcl.2.trans_le L.limit_le
            omega
          change V₁.fat b = start at hlink
          rw [hfat hbs] at hlink
          exact not_link_to_free hone hcl hfree (hlq.used b hb).1 hlink
      · exact hnot ((hother hq howner hqt).chain_subset hlq start hin)
    | @deeper _ _ r _ hl' hr howner hdir hq =>
      obtain rfl := hroot.unique hl'
      by_cases hrt : r = p.target L.rootCluster
      · have hno : ((0x20 : UInt8) &&& 0x10 != 0) = false := by decide
        rw [hrt, hentry, Entry.isDir, hno] at hdir
        cases hdir
      · have hspans := hother hr howner hrt
        rw [hdir] at hspans
        obtain ⟨ls, hls⟩ := hq.chain
        exact hnot ((hspans.under_mem hq hls).2 lq hlq start hin).1

end Broken

/-- The requests that lose clusters or share them. -/
inductive Breaks (L : Layout) (V : Volume) (l : List ℕ) (req : Request) : Prop
  /-- A directory is overwritten and has chains below it. -/
  | lostBelow {p : Slot} {lp : List ℕ} (htype : req.type = 2)
      (hlong : req.path.length + 1 ≤ req.length) (hroom : 0 < req.dataLen → V.firstFree L ≠ none)
      (hp : V.find (to83 req.path) (L.slots l) = some p) (hdir : (V.entry p).isDir = true)
      (hlp : L.Chain V (V.entry p).cluster lp) (hbelow : ¬ V.Hollow L lp)
  /-- A directory is overwritten, and data of this length can spell an entry for a cluster in
  use. -/
  | spelt {p : Slot} {lp : List ℕ} {c : ℕ} {data : ℕ → UInt8} {e : Entry} (htype : req.type = 2)
      (hlong : req.path.length + 1 ≤ req.length) (hpos : 0 < req.dataLen)
      (hf : V.firstFree L = some c) (hp : V.find (to83 req.path) (L.slots l) = some p)
      (hdir : (V.entry p).isDir = true) (hend : V.endsAfter p = false)
      (hlp : L.Chain V (V.entry p).cluster lp)
      (he : e ∈ sectorEntries (dataSector data 0 req.dataLen)) (howner : e.isOwner = true)
      (hu : e.cluster = c ∨ L.IsCluster e.cluster ∧ V.fat e.cluster ≠ 0 ∧ e.cluster ∉ lp)
  /-- A new file takes the place of an entry with a chain. -/
  | replaced {p : Slot} (htype : req.type = 2) (hlong : req.path.length + 1 ≤ req.length)
      (hroom : 0 < req.dataLen → V.firstFree L ≠ none)
      (hn : V.find (to83 req.path) (L.slots l) = none) (hp : V.freeSlot (L.slots l) = some p)
      (hlink : V.Linking (p.target L.rootCluster))
  /-- The entry of a new file does not lead to its data. -/
  | unseen {p : Slot} {c : ℕ} (htype : req.type = 2) (hlong : req.path.length + 1 ≤ req.length)
      (hpos : 0 < req.dataLen) (hf : V.firstFree L = some c)
      (hn : V.find (to83 req.path) (L.slots l) = none) (hp : V.freeSlot (L.slots l) = some p)
      (hbad : (to83 req.path).getD 0 0 = 0xE5 ∨ 2 ^ 16 ≤ c)
  /-- A directory with a chain is deleted. -/
  | deleted {p : Slot} (htype : req.type = 3 ∨ req.type = 5)
      (hp : V.find (to83 req.path) (L.slots l) = some p) (hdir : (V.entry p).isDir = true)
      (hlink : isLink (V.entry p).cluster = true)
  /-- A new directory is not seen, or takes the place of an entry with a chain. -/
  | made {p : Slot} {c : ℕ} (htype : req.type = 4) (hf : V.firstFree L = some c)
      (hp : V.freeSlot (L.slots l) = some p)
      (hbad : (to83 req.path).getD 0 0 = 0xE5 ∨ V.Linking (p.target L.rootCluster))

/-- Requests that differ in their data only. -/
structure Request.Alike (req req' : Request) : Prop where
  type : req'.type = req.type
  path : req'.path = req.path
  length : req'.length = req.length

/-- Only the type, the path and the length matter. -/
theorem Breaks.of_alike {L : Layout} {V : Volume} {l : List ℕ} {req req' : Request}
    (h : Breaks L V l req') (hreq : req.Alike req') : Breaks L V l req := by
  obtain ⟨htype, hpath, hlength⟩ := hreq
  have hlen : req'.dataLen = req.dataLen := by
    rw [Request.dataLen, Request.dataLen, hpath, hlength]
  cases h with
  | lostBelow h2 hlong hroom hp hdir hlp hbelow =>
    rw [htype] at h2
    rw [hpath, hlength] at hlong
    rw [hlen] at hroom
    rw [hpath] at hp
    exact .lostBelow h2 hlong hroom hp hdir hlp hbelow
  | spelt h2 hlong hpos hf hp hdir hend hlp he howner hu =>
    rw [htype] at h2
    rw [hpath, hlength] at hlong
    rw [hlen] at hpos he
    rw [hpath] at hp
    exact .spelt h2 hlong hpos hf hp hdir hend hlp he howner hu
  | replaced h2 hlong hroom hn hp hlink =>
    rw [htype] at h2
    rw [hpath, hlength] at hlong
    rw [hlen] at hroom
    rw [hpath] at hn
    exact .replaced h2 hlong hroom hn hp hlink
  | unseen h2 hlong hpos hf hn hp hbad =>
    rw [htype] at h2
    rw [hpath, hlength] at hlong
    rw [hlen] at hpos
    rw [hpath] at hn hbad
    exact .unseen h2 hlong hpos hf hn hp hbad
  | deleted h3 hp hdir hlink =>
    rw [htype] at h3
    rw [hpath] at hp
    exact .deleted h3 hp hdir hlink
  | made h4 hf hp hbad =>
    rw [htype] at h4
    rw [hpath] at hbad
    exact .made h4 hf hp hbad

section Main

variable {L : Layout} {V V' : Volume} {k : ℕ} {l : List ℕ} {own : Slot → Set ℕ} {req : Request}
  {b : Bool} {name : List UInt8} {data : ℕ → UInt8} {len : ℕ}

private theorem Entry.isOwner_iff {e : Entry} (h0 : e.first ≠ 0) (h46 : e.first ≠ 46)
    (hattr : (e.attr &&& 0x08 == 0) = true) : e.isOwner = true ↔ e.first ≠ 0xE5 := by
  simp only [Entry.isOwner, Entry.isLive, Entry.isFree, Entry.isDot, hattr]
  simp [h0, h46]

/-- A new file whose entry can hold the number of its first cluster. -/
private theorem file_exactlyOne_iff {V₁ : Volume} {start : ℕ} {lnew : List ℕ} {p : Slot}
    (hS : L.Sound V k l own) (hone : L.ExactlyOne V) (hs : Stored L V data len start lnew V₁)
    (hp : V.freeSlot (L.slots l) = some p) (hn : name.length = 11) (h0 : name.getD 0 0 ≠ 0)
    (h46 : name.getD 0 0 ≠ 46) (hlow : start < 2 ^ 16) :
    L.ExactlyOne (V₁.added (p.target L.rootCluster) (fileEntry name start len)) ↔
      ¬ V.Linking (p.target L.rootCluster) ∧ (0 < len → name.getD 0 0 ≠ 0xE5) := by
  have hend := (isNamed_fileEntry hn h0 start len []).1
  have hspan : (readEntry (fileEntry name start len) 0).isOwner = true →
      L.Spans (V₁.added (p.target L.rootCluster) (fileEntry name start len)) k
        (readEntry (fileEntry name start len) 0).isDir
        (readEntry (fileEntry name start len) 0).cluster {a | a ∈ lnew} := by
    intro _
    have hdir : (readEntry (fileEntry name start len) 0).isDir = false := by
      rw [readEntry_fileEntry hn]
      exact (by decide : ((0x20 : UInt8) &&& 0x10 != 0) = false)
    rw [hdir, readEntry_fileEntry hn]
    apply Layout.Spans.file
    change L.Chain _ (start % 2 ^ 16) lnew
    rw [Nat.mod_eq_of_lt hlow]
    exact hs.chain.congr fun _ _ => rfl
  have howner : (readEntry (fileEntry name start len) 0).isOwner = true ↔ name.getD 0 0 ≠ 0xE5 := by
    rw [readEntry_fileEntry hn]
    exact Entry.isOwner_iff h0 h46 (by decide : ((0x20 : UInt8) &&& 0x08 == 0) = true)
  rw [added_exactlyOne_iff hS hone hs.agree hp hend hs.fresh hs.fat_iff (Nat.le_refl k) hspan,
    howner]
  have hnil : lnew ≠ [] ↔ 0 < len := by
    cases hs with
    | none => simp
    | some hlen => simp [hlen]
  rw [hnil]

private theorem dir_exactlyOne_iff {c : ℕ} {p : Slot} (hS : L.Sound V k l own)
    (hone : L.ExactlyOne V) (hf : V.firstFree L = some c) (hp : V.freeSlot (L.slots l) = some p)
    (hn : name.length = 11) (h0 : name.getD 0 0 ≠ 0) (h46 : name.getD 0 0 ≠ 46) :
    L.ExactlyOne ((V.withDots c L.rootCluster).added (p.target L.rootCluster) (dirEntry name c)) ↔
      ¬ V.Linking (p.target L.rootCluster) ∧ name.getD 0 0 ≠ 0xE5 := by
  obtain ⟨hcl, hfree⟩ := Volume.firstFree_spec hf
  have hmem := mem_slots_target hS.root.chain hp
  have hcluster : (readEntry (dirEntry name c) 0).cluster = c := by
    rw [readEntry_dirEntry hn]
    have hlt := hcl.2.trans_le L.limit_le
    unfold eoc at hlt
    exact Nat.mod_eq_of_lt (by omega)
  have hend : (readEntry (dirEntry name c) 0).isEnd = false := by
    rw [readEntry_dirEntry hn]
    exact beq_eq_false_iff_ne.mpr h0
  have hne : c ≠ (p.target L.rootCluster).cluster := by
    intro heq
    exact (hS.root.chain.used _ (Layout.mem_slots.mp hmem).1).2 (heq ▸ hfree)
  have hspan : (readEntry (dirEntry name c) 0).isOwner = true →
      L.Spans ((V.withDots c L.rootCluster).added (p.target L.rootCluster) (dirEntry name c))
      (k + 2)
        (readEntry (dirEntry name c) 0).isDir (readEntry (dirEntry name c) 0).cluster
        {a | a ∈ [c]} := by
    intro _
    have hdir : (readEntry (dirEntry name c) 0).isDir = true := by
      rw [readEntry_dirEntry hn]
      exact (by decide : ((0x10 : UInt8) &&& 0x10 != 0) = true)
    rw [hdir, hcluster]
    have hchain : L.Chain ((V.withDots c L.rootCluster).added (p.target L.rootCluster)
        (dirEntry name c)) c [c] := (withDots_chain hf L.rootCluster).congr fun _ _ => rfl
    apply spans_single hchain ?_ (dotSector_end c L.rootCluster)
    · intro e he he'
      rw [dotSector_entries c L.rootCluster e he] at he'
      cases he'
    · rw [Volume.added, data_setSlot_of_ne _ _ _ hne]
      simp [Volume.withDots]
  have hfat (a : ℕ) : (V.withDots c L.rootCluster).fat a ≠ 0 ↔ V.fat a ≠ 0 ∨ a ∈ [c] := by
    by_cases ha : a = c
    · simp [ha, Volume.withDots, eoc]
    · simp [ha, Volume.withDots]
  have hfresh (a : ℕ) (ha : a ∈ [c]) : L.IsCluster a ∧ V.fat a = 0 := by
    rw [List.mem_singleton.mp ha]
    exact ⟨hcl, hfree⟩
  have howner : (readEntry (dirEntry name c) 0).isOwner = true ↔ name.getD 0 0 ≠ 0xE5 := by
    rw [readEntry_dirEntry hn]
    exact Entry.isOwner_iff h0 h46 (by decide : ((0x10 : UInt8) &&& 0x08 == 0) = true)
  rw [added_exactlyOne_iff hS hone (withDots_agree hf _) hp hend hfresh hfat (by omega) hspan,
    howner]
  simp

/-- What an entry spans that is overwritten by a request. -/
private theorem spans_overwritten {V₁ : Volume} {start : ℕ} {lnew lp : List ℕ} {p : Slot}
    (hS : L.Sound V k l own) (hin : ∀ u, V.fat u ≠ 0 → L.IsCluster u) (hlen : len ≤ 64)
    (hs : Stored L V data len start lnew V₁) (hp : V.find name (L.slots l) = some p)
    (hlp : L.Chain V (V.entry p).cluster lp)
    (hspelt : (V.entry p).isDir = true → 0 < len →
      ∀ e ∈ sectorEntries (dataSector data 0 len), e.isOwner = true →
        ¬ (e.cluster = start ∨ L.IsCluster e.cluster ∧ V.fat e.cluster ≠ 0 ∧ e.cluster ∉ lp)) :
    L.Spans (V₁.overwritten p lp start len) (k + 2) (V.entry p).isDir start {a | a ∈ lnew} := by
  have hfat (a : ℕ) : (V₁.overwritten p lp start len).fat a = if a ∈ lp then 0 else V₁.fat a := by
    rw [Volume.overwritten, Volume.setSlot_fat, Volume.free_fat]
  have hchain : L.Chain (V₁.overwritten p lp start len) start lnew := by
    apply hs.chain.congr
    intro a ha
    rw [hfat, if_neg fun hm => (hlp.used a hm).2 (hs.fresh a ha).2]
  cases hdir : (V.entry p).isDir with
  | false => exact .file hchain
  | true =>
    rcases Nat.eq_zero_or_pos len with h0 | hpos
    · subst h0
      cases hs with
      | none =>
        have hspan : L.Spans (V.overwritten p lp 0 0) (k + 2) true 0 ∅ := .of_not_link rfl
        simpa using hspan
      | some hpos => cases hpos
    · obtain ⟨-, hdata⟩ := overwritten_contents hS hpos hs hp hlp
      have hlnew : lnew = [start] := by
        cases hs with
        | none => cases hpos
        | some => rfl
      rw [hlnew] at hchain ⊢
      apply spans_single hchain hdata (dataSector_end data hlen)
      intro e he howner
      by_contra hused
      rw [hfat] at hused
      have hout : e.cluster ∉ lp := fun hm => hused (if_pos hm)
      rw [if_neg hout] at hused
      apply hspelt hdir hpos e he howner
      rcases (hs.fat_iff _).mp hused with hold | hnew
      · exact .inr ⟨hin _ hold, hold, hout⟩
      · rw [hlnew] at hnew
        exact .inl (List.mem_singleton.mp hnew)

private theorem success_exactlyOne_iff {V₁ : Volume} {start : ℕ} {lnew lp : List ℕ} {p : Slot}
    (hS : L.Sound V k l own) (hone : L.ExactlyOne V) (hin : ∀ u, V.fat u ≠ 0 → L.IsCluster u)
    (hlen : len ≤ 64) (hs : Stored L V data len start lnew V₁)
    (hp : V.find name (L.slots l) = some p) (hlp : L.Chain V (V.entry p).cluster lp)
    (hspelt : (V.entry p).isDir = true → 0 < len →
      ∀ e ∈ sectorEntries (dataSector data 0 len), e.isOwner = true →
        ¬ (e.cluster = start ∨ L.IsCluster e.cluster ∧ V.fat e.cluster ≠ 0 ∧ e.cluster ∉ lp)) :
    L.ExactlyOne (V₁.overwritten p lp start len) ↔
      ((V.entry p).isDir = true → V.Hollow L lp) := by
  have hspan := spans_overwritten hS hin hlen hs hp hlp hspelt
  rw [← Volume.free_nil (V₁.overwritten p lp start len)] at hspan ⊢
  refine overwritten_exactlyOne_iff hS hone hs.agree hp hlp hs.start_lt
    (fun a ha => (by cases ha)) (fun a ha => (hs.fresh a ha).2) ?_ (by omega) hspan
  intro a hold hused
  rw [Volume.free_nil, Volume.overwritten, Volume.setSlot_fat, Volume.free_fat] at hused
  have hout : a ∉ lp := fun hm => hused (if_pos hm)
  rw [if_neg hout] at hused
  exact ((hs.fat_iff a).mp hused).resolve_left (not_not.mpr hold)

private theorem refused_exactlyOne_iff {V₁ : Volume} {start : ℕ} {lnew lp : List ℕ} {p : Slot}
    (hS : L.Sound V k l own) (hone : L.ExactlyOne V) (hs : Stored L V data len start lnew V₁)
    (hp : V.find name (L.slots l) = some p) (hlp : L.Chain V (V.entry p).cluster lp) :
    L.ExactlyOne ((V₁.overwritten p lp start len).free lnew) ↔
      ((V.entry p).isDir = true → V.Hollow L lp) := by
  have hfat (a : ℕ) : ((V₁.overwritten p lp start len).free lnew).fat a =
      if a ∈ lnew then 0 else if a ∈ lp then 0 else V₁.fat a := by
    rw [Volume.free_fat, Volume.overwritten, Volume.setSlot_fat, Volume.free_fat]
  have hspan : L.Spans ((V₁.overwritten p lp start len).free lnew) (k + 1) (V.entry p).isDir start
      {a | a ∈ ([] : List ℕ)} := by
    have hnil : {a | a ∈ ([] : List ℕ)} = (∅ : Set ℕ) := by simp
    rw [hnil]
    cases hs with
    | none => exact .of_not_link rfl
    | some hpos hf =>
      apply Layout.Spans.lost
      intro lc hlc
      cases lc with
      | nil =>
        have hno := hlc.not_link
        rw [(Volume.firstFree_spec hf).1.isLink] at hno
        cases hno
      | cons a lc =>
        obtain ⟨heq, -, hused, -⟩ := Layout.Chain.cons_iff.mp hlc
        rw [hfat, if_pos (by simp [heq])] at hused
        exact hused rfl
  refine overwritten_exactlyOne_iff hS hone hs.agree hp hlp hs.start_lt
    (fun a ha => (hs.fresh a ha).2) (fun a ha => (by cases ha)) ?_ (by omega) hspan
  intro a hold hused
  rw [hfat] at hused
  have hout : a ∉ lnew := fun hm => hused (if_pos hm)
  rw [if_neg hout] at hused
  have hlp' : a ∉ lp := fun hm => hused (if_pos hm)
  rw [if_neg hlp'] at hused
  rcases (hs.fat_iff a).mp hused with h | h
  · exact absurd hold h
  · exact absurd h hout

/-- A request that is none of these keeps every cluster on one chain. -/
private theorem Effect.exactlyOne (hS : L.Sound V k l own) (hone : L.ExactlyOne V)
    (hin : ∀ u, V.fat u ≠ 0 → L.IsCluster u) (hfits : req.length ≤ 64) (h : Effect L V l req b V')
    (hgood : ¬ Breaks L V l req) : L.ExactlyOne V' := by
  obtain ⟨h46, h0⟩ := to83_first req.path_no_zero
  have hn := to83_length req.path
  have hroom {data : ℕ → UInt8} {start : ℕ} {lnew : List ℕ} {V₁ : Volume}
      (hs : Stored L V data req.dataLen start lnew V₁) (hpos : 0 < req.dataLen) :
      V.firstFree L ≠ none := by
    rw [hs.firstFree hpos]
    exact Option.some_ne_none _
  cases h with
  | short => exact hone
  | write htype hlong h =>
    have hlen : req.dataLen ≤ 64 := by
      unfold Request.dataLen
      omega
    cases h with
    | noSpace => exact hone
    | full hnone hfull hs =>
      exact hS.exactlyOne_congr hone hs.free_fat fun c hc => (hs.agree c hc).2
    | refused hp hlp hend hs =>
      refine (refused_exactlyOne_iff hS hone hs hp hlp).mpr fun hdir => ?_
      by_contra hbelow
      exact hgood (.lostBelow htype hlong (hroom hs) hp hdir hlp hbelow)
    | overwritten hp hlp hend hs =>
      refine (success_exactlyOne_iff hS hone hin hlen hs hp hlp ?_).mpr fun hdir => ?_
      · intro hdir hpos e he howner hu
        exact hgood (.spelt htype hlong hpos (hs.firstFree hpos) hp hdir hend hlp he howner hu)
      · by_contra hbelow
        exact hgood (.lostBelow htype hlong (hroom hs) hp hdir hlp hbelow)
    | @added p start lnew V₁ hnone hp hs =>
      have hlow : start < 2 ^ 16 := by
        rcases Nat.eq_zero_or_pos req.dataLen with hzero | hpos
        · generalize req.dataLen = len at hs hzero
          subst hzero
          cases hs with
          | none => decide
          | some hpos => cases hpos
        · by_contra hhigh
          exact hgood (.unseen htype hlong hpos (hs.firstFree hpos) hnone hp
            (.inr (Nat.not_lt.mp hhigh)))
      refine (file_exactlyOne_iff hS hone hs hp hn h0 h46 hlow).mpr ⟨fun hlink => ?_, ?_⟩
      · exact hgood (.replaced htype hlong (hroom hs) hnone hp hlink)
      · exact fun hpos hmark =>
          hgood (.unseen htype hlong hpos (hs.firstFree hpos) hnone hp (.inl hmark))
  | delete htype h =>
    cases h with
    | missing => exact hone
    | deleted hp hlp =>
      refine (deleted_exactlyOne_iff hS hone hp hlp).mpr ?_
      rintro ⟨hdir, hlink⟩
      exact hgood (.deleted htype hp hdir hlink)
  | make htype h =>
    cases h with
    | noSpace => exact hone
    | @full c hf hfull =>
      apply hS.exactlyOne_congr hone
      · funext a
        by_cases ha : a = c
        · simp [ha, (Volume.firstFree_spec hf).2]
        · simp [ha, Volume.withDots]
      · exact fun a ha => (withDots_agree hf _ a ha).2
    | added hf hp =>
      refine (dir_exactlyOne_iff hS hone hf hp hn h0 h46).mpr ⟨fun hlink => ?_, fun hmark => ?_⟩
      · exact hgood (.made htype hf hp (.inr hlink))
      · exact hgood (.made htype hf hp (.inl hmark))

theorem dataSector_congr {data data' : ℕ → UInt8} (h : ∀ i < len, data i = data' i) :
    dataSector data 0 len = dataSector data' 0 len := by
  funext i
  unfold dataSector
  split
  next hi => rw [Nat.zero_add, h i hi]
  · rfl

/-- The request with other data. -/
theorem alike_writeRequest (htype : req.type = 2) (hroot : 47 ∉ req.path)
    (hlong : req.path.length + 1 ≤ req.length) (hfits : req.length ≤ 64) (data : ℕ → UInt8) :
    req.Alike (writeRequest req.path data req.dataLen) ∧
      ∀ i < req.dataLen, (writeRequest req.path data req.dataLen).contents req.path i = data i := by
  have hlen : req.path.length + 1 + req.dataLen = req.length := by
    unfold Request.dataLen
    omega
  have hle : req.path.length + 1 + req.dataLen ≤ 64 := hlen.trans_le hfits
  obtain ⟨hreq, hcontents⟩ := writeRequest_spec data hroot req.path_no_zero hle
  exact ⟨⟨hreq.type.trans htype.symm, hreq.path_eq, hlen⟩, hcontents⟩

theorem Request.Alike.dataLen {req' : Request} (h : req.Alike req') :
    req'.dataLen = req.dataLen := by
  rw [Request.dataLen, Request.dataLen, h.path, h.length]

/-- Zeros spell no entries: what is below an overwritten directory is lost. -/
private theorem lostBelow_breaks {p : Slot} {lp : List ℕ} (hS : L.Sound V k l own)
    (hone : L.ExactlyOne V) (hin : ∀ u, V.fat u ≠ 0 → L.IsCluster u) (hroot : 47 ∉ req.path)
    (hfits : req.length ≤ 64) (htype : req.type = 2) (hlong : req.path.length + 1 ≤ req.length)
    (hroom : 0 < req.dataLen → V.firstFree L ≠ none)
    (hp : V.find (to83 req.path) (L.slots l) = some p) (hdir : (V.entry p).isDir = true)
    (hlp : L.Chain V (V.entry p).cluster lp) (hbelow : ¬ V.Hollow L lp) :
    ∃ req', req.Alike req' ∧ ∀ b V', Effect L V l req' b V' → ¬ L.ExactlyOne V' := by
  obtain ⟨halike, hcontents⟩ := alike_writeRequest htype hroot hlong hfits fun _ => 0
  refine ⟨_, halike, fun b V' h hone' => ?_⟩
  have hw := h.write_of (halike.type.trans htype) (by rw [halike.path, halike.length]; exact hlong)
  rw [halike.path, halike.dataLen] at hw
  have hlen : req.dataLen ≤ 64 := by
    unfold Request.dataLen
    omega
  cases hw with
  | noSpace hpos hf => exact hroom hpos hf
  | full hnone => rw [hp] at hnone; cases hnone
  | added hnone => rw [hp] at hnone; cases hnone
  | refused hq hlq hend hs =>
    obtain rfl := Option.some.inj (hp.symm.trans hq)
    obtain rfl := hlp.unique hlq
    exact hbelow ((refused_exactlyOne_iff hS hone hs hp hlp).mp hone' hdir)
  | overwritten hq hlq hend hs =>
    obtain rfl := Option.some.inj (hp.symm.trans hq)
    obtain rfl := hlp.unique hlq
    refine hbelow ((success_exactlyOne_iff hS hone hin hlen hs hp hlp ?_).mp hone' hdir)
    intro _ _ e he
    have hzero : sectorEntries (dataSector (fun _ => 0) 0 req.dataLen) = [] := by
      have hsec : dataSector (fun _ => 0) 0 req.dataLen = fun _ => 0 := by
        funext i
        simp [dataSector]
      rw [hsec]
      decide
    rw [dataSector_congr hcontents, hzero] at he
    cases he

/-- Each of these requests, with suitable data, leaves a cluster on no chain or on two. -/
private theorem Breaks.exists_alike (h : Breaks L V l req) (hS : L.Sound V k l own)
    (hone : L.ExactlyOne V) (hin : ∀ u, V.fat u ≠ 0 → L.IsCluster u) (hroot : 47 ∉ req.path)
    (hfits : req.length ≤ 64) :
    ∃ req', req.Alike req' ∧ ∀ b V', Effect L V l req' b V' → ¬ L.ExactlyOne V' := by
  obtain ⟨h46, h0⟩ := to83_first req.path_no_zero
  have hn := to83_length req.path
  have hself : req.Alike req := ⟨rfl, rfl, rfl⟩
  cases h with
  | lostBelow htype hlong hroom hp hdir hlp hbelow =>
    exact lostBelow_breaks hS hone hin hroot hfits htype hlong hroom hp hdir hlp hbelow
  | @spelt p lp c data e htype hlong hpos hf hp hdir hend hlp he howner hu =>
    by_cases hhollow : V.Hollow L lp
    · obtain ⟨halike, hcontents⟩ := alike_writeRequest htype hroot hlong hfits data
      refine ⟨_, halike, fun b V' h => ?_⟩
      have hw := h.write_of (halike.type.trans htype)
        (by rw [halike.path, halike.length]; exact hlong)
      rw [halike.path, halike.dataLen] at hw
      have hlen : req.dataLen ≤ 64 := by
        unfold Request.dataLen
        omega
      cases hw with
      | noSpace _ hnone => rw [hf] at hnone; cases hnone
      | full hnone => rw [hp] at hnone; cases hnone
      | added hnone => rw [hp] at hnone; cases hnone
      | refused hq _ hend' =>
        obtain rfl := Option.some.inj (hp.symm.trans hq)
        rw [hend] at hend'
        cases hend'
      | @overwritten q lq start lnew V₁ hq hlq _ hs =>
        obtain rfl := Option.some.inj (hp.symm.trans hq)
        obtain rfl := hlp.unique hlq
        obtain rfl : start = c := Option.some.inj ((hs.firstFree hpos).symm.trans hf)
        rw [← dataSector_congr hcontents] at he
        exact not_exactlyOne_of_spelt hS hone hpos hlen hs hp hdir hlp hhollow he howner hu
    · refine lostBelow_breaks hS hone hin hroot hfits htype hlong (fun _ => ?_) hp hdir hlp hhollow
      rw [hf]
      exact Option.some_ne_none _
  | @replaced p htype hlong hroom hnone hp hlink =>
    refine ⟨req, hself, fun b V' h => ?_⟩
    obtain ⟨-, start, lnew, V₁, hs, rfl⟩ := (h.write_of htype hlong).isAdded hnone hroom hp
    by_cases hlow : start < 2 ^ 16
    · exact fun hone' => ((file_exactlyOne_iff hS hone hs hp hn h0 h46 hlow).mp hone').1 hlink
    · have hpos : 0 < req.dataLen := by
        by_contra hzero
        have hlt : ¬ start < 2 ^ 16 := hlow
        generalize req.dataLen = len at hs hzero
        cases hs with
        | none => exact hlt (by decide)
        | some hpos => exact hzero hpos
      exact not_exactlyOne_of_high hS hone hpos hs hp hn h0 (Nat.not_lt.mp hlow)
  | @unseen p c htype hlong hpos hf hnone hp hbad =>
    refine ⟨req, hself, fun b V' h => ?_⟩
    have hroom : V.firstFree L ≠ none := by
      rw [hf]
      exact Option.some_ne_none _
    obtain ⟨-, start, lnew, V₁, hs, rfl⟩ := (h.write_of htype hlong).isAdded hnone
      (fun _ => hroom) hp
    obtain rfl : start = c := Option.some.inj ((hs.firstFree hpos).symm.trans hf)
    by_cases hlow : start < 2 ^ 16
    · rcases hbad with hmark | hhigh
      · exact fun hone' =>
          ((file_exactlyOne_iff hS hone hs hp hn h0 h46 hlow).mp hone').2 hpos hmark
      · omega
    · exact not_exactlyOne_of_high hS hone hpos hs hp hn h0 (Nat.not_lt.mp hlow)
  | @deleted p htype hp hdir hlink =>
    refine ⟨req, hself, fun b V' h hone' => ?_⟩
    cases h.delete_of htype with
    | missing hnone => rw [hp] at hnone; cases hnone
    | deleted hq hlq =>
      obtain rfl := Option.some.inj (hp.symm.trans hq)
      exact (deleted_exactlyOne_iff hS hone hp hlq).mp hone' ⟨hdir, hlink⟩
  | @made p c htype hf hp hbad =>
    refine ⟨req, hself, fun b V' h hone' => ?_⟩
    cases h.make_of htype with
    | noSpace hnone => rw [hf] at hnone; cases hnone
    | full _ hfull => rw [hp] at hfull; cases hfull
    | added hf' hq =>
      obtain rfl := Option.some.inj (hp.symm.trans hq)
      obtain ⟨hlink, hmark⟩ := (dir_exactlyOne_iff hS hone hf' hp hn h0 h46).mp hone'
      rcases hbad with hbad | hbad
      · exact hmark hbad
      · exact hlink hbad

end Main

section Chains

variable {δ : Type} {D : ReliableDisk δ} {L : Layout} {s : Server δ} {k : ℕ} {l : List ℕ}
  {own : Slot → Set ℕ} {req : Request}

/-- On a consistent volume with every cluster in use on exactly one chain, a request for a name in
the root directory leaves it so, whatever data it holds, unless it is one of those that break it. -/
theorem request_keeps_chains_iff (spawn : Mem → ℕ → Option ℕ) (hgeo : s.geo = L.toGeometry)
    (hc : L.Consistent (D.sectors s.disk) k l own)
    (hone : L.ExactlyOne (L.view (D.sectors s.disk)))
    (htype : req.type = 2 ∨ req.type = 3 ∨ req.type = 4 ∨ req.type = 5) (hroot : 47 ∉ req.path)
    (hfits : req.length ≤ 64) :
    (∀ req', req.Alike req' → ∃ r s', serve D.toDevice spawn s req' = some (.replied r s') ∧
      L.ExactlyOne (L.view (D.sectors s'.disk))) ↔
      ¬ Breaks L (L.view (D.sectors s.disk)) l req := by
  have hin (u : ℕ) (hu : (L.view (D.sectors s.disk)).fat u ≠ 0) : L.IsCluster u := by
    by_contra hno
    exact hu (if_neg hno)
  have hserve (req' : Request) (h : req.Alike req') := serve_root D spawn req' hgeo hc
    (by rw [h.type]; exact htype) (by rw [h.path]; exact hroot) (by rw [h.length]; exact hfits)
  constructor
  · intro hall hbreaks
    obtain ⟨req', halike, hbad⟩ := hbreaks.exists_alike hc.sound hone hin hroot hfits
    obtain ⟨b, d', V', hres, h', heffect⟩ := hserve req' halike
    obtain ⟨r, s', hres', hone'⟩ := hall req' halike
    rw [hres] at hres'
    cases hres'
    rw [show L.view (D.sectors d') = V' from h'.view_eq] at hone'
    exact hbad b V' heffect hone'
  · intro hgood req' halike
    obtain ⟨b, d', V', hres, h', heffect⟩ := hserve req' halike
    refine ⟨_, _, hres, ?_⟩
    rw [show L.view (D.sectors d') = V' from h'.view_eq]
    refine heffect.exactlyOne hc.sound hone hin (by rw [halike.length]; exact hfits) ?_
    exact fun hbreaks => hgood (hbreaks.of_alike halike)

end Chains

section Sample

/-- The small volume with one directory D in it, which is empty. -/
def directoryServer : Server (ℕ → Sector) where
  geo := sampleLayout.toGeometry
  disk := fun lba =>
    if lba = 1 ∨ lba = 2 then store (store (fun _ => 0) 8 4 eoc) 12 4 eoc
    else if lba = 3 then fill (fun _ => 0) 0 32 (dirEntry (to83 [68]) 3)
    else if lba = 5 then dotSector 3 2
    else fun _ => 0
  fileBuf := fun _ => 0

def directoryVolume : Volume := sampleLayout.view directoryServer.disk

def directoryOwn (p : Slot) : Set ℕ := {c | c = 3 ∧ p = ⟨2, 0, 0⟩}

/-- The disk evaluated: the slots of the root directory, those of the directory D, and the table. -/
private theorem directoryVolume_eval :
    ((∀ p ∈ sampleLayout.slots [2], (directoryVolume.entry p).isLive = true → p = ⟨2, 0, 0⟩) ∧
      directoryVolume.entry ⟨2, 0, 0⟩ = ⟨to83 [68], 0x10, 3, 0⟩ ∧
      (∀ p ∈ (sampleLayout.slots [2]).dropWhile fun p => !(directoryVolume.entry p).isEnd,
        (directoryVolume.entry p).isEnd = true) ∧
      (⟨2, 0, 0⟩ : Slot) ∈ directoryVolume.active (sampleLayout.slots [2]) ∧
      (directoryVolume.entry ⟨2, 0, 0⟩).isOwner = true) ∧
    (∀ q ∈ sampleLayout.slots [3], (directoryVolume.entry q).isOwner = false) ∧
    directoryVolume.fat 2 = eoc ∧ directoryVolume.fat 3 = eoc ∧
    ∀ c < 128, directoryVolume.fat c ≠ 0 → c = 2 ∨ c = 3 := by
  decide +kernel

theorem directoryVolume_live : ∀ p ∈ sampleLayout.slots [2],
    (directoryVolume.entry p).isLive = true → p = ⟨2, 0, 0⟩ := directoryVolume_eval.1.1

theorem directoryVolume_entry : directoryVolume.entry ⟨2, 0, 0⟩ = ⟨to83 [68], 0x10, 3, 0⟩ :=
  directoryVolume_eval.1.2.1

theorem directoryVolume_chain :
    sampleLayout.Chain directoryVolume 2 [2] ∧ sampleLayout.Chain directoryVolume 3 [3] := by
  obtain ⟨-, -, h2, h3, -⟩ := directoryVolume_eval
  exact ⟨.single (by decide) h2.ge, .single (by decide) h3.ge⟩

theorem directoryServer_consistent :
    sampleLayout.Consistent directoryServer.disk 1 [2] directoryOwn := by
  obtain ⟨hroot, hsub⟩ := directoryVolume_chain
  obtain ⟨⟨-, -, htidy, hactive, howner⟩, hbelow, -⟩ := directoryVolume_eval
  have hlive (p : Slot) (hp : p ∈ sampleLayout.slots [2])
      (hl : (directoryVolume.entry p).isLive = true) : p = ⟨2, 0, 0⟩ := directoryVolume_live p hp hl
  have hdot : (directoryVolume.entry ⟨2, 0, 0⟩).isDot = false := by
    rw [directoryVolume_entry]
    decide
  refine ⟨fun c h₁ h₂ => absurd (h₁.trans_lt h₂) (lt_irrefl 128), ⟨⟨hroot, ?_, ?_, ?_, ?_⟩,
    htidy, ?_⟩, ?_⟩
  · intro p hp howner
    obtain rfl := hlive p (Volume.mem_of_active hp) (by
      simp only [Entry.isOwner, Bool.and_eq_true] at howner
      exact howner.1)
    change sampleLayout.Owns directoryVolume 1 (directoryVolume.entry ⟨2, 0, 0⟩).isDir
      (directoryVolume.entry ⟨2, 0, 0⟩).cluster _
    have hdir : (⟨to83 [68], 0x10, 3, 0⟩ : Entry).isDir = true := by decide
    rw [directoryVolume_entry, hdir]
    refine Layout.Owns.dir_iff.mpr ⟨[3], fun _ => ∅, ⟨hsub, ?_, fun _ _ => rfl,
      fun _ _ _ => Set.notMem_empty _, fun _ _ _ => Set.disjoint_empty _⟩, ?_⟩
    · intro q hq hq'
      rw [hbelow q (Volume.mem_of_active hq)] at hq'
      cases hq'
    · ext c
      simp [directoryOwn, allOf]
  · intro p hp
    ext c
    simp only [directoryOwn, Set.mem_ofPred_eq, Set.mem_empty_iff_false, iff_false]
    rintro ⟨-, rfl⟩
    exact hp ⟨hactive, howner⟩
  · rintro p c hc ⟨rfl, -⟩
    revert hc
    decide
  · intro p q hpq
    rw [Set.disjoint_left]
    rintro c ⟨-, rfl⟩ ⟨-, rfl⟩
    exact hpq rfl
  · intro p hp hl
    obtain rfl := hlive p hp hl
    exact hdot
  · intro p hp q hq hp' hq' _
    rw [hlive p hp hp', hlive q hq hq']

theorem directoryServer_exactlyOne :
    sampleLayout.ExactlyOne (sampleLayout.view directoryServer.disk) := by
  have hused := directoryVolume_eval.2.2.2.2
  have hS := directoryServer_consistent.sound
  rw [hS.spans.exactlyOne_iff hS.root.chain]
  intro c hc hfat
  rcases hused c hc.2 hfat with rfl | rfl
  · exact .inl (by simp)
  · exact Layout.Sound.mem_allOf_of_own (p := ⟨2, 0, 0⟩) ⟨rfl, rfl⟩

/-- A new file next to the directory. -/
theorem request_keeps_chains_sample :
    ¬ Breaks sampleLayout directoryVolume [2] (writeRequest [66] (fun _ => 7) 1) ∧
    ∃ r s', serve arrayDisk.toDevice (fun _ _ => none) directoryServer
        (writeRequest [66] (fun _ => 7) 1) = some (.replied r s') ∧
      sampleLayout.ExactlyOne (sampleLayout.view s'.disk) := by
  have hpath : (writeRequest [66] (fun _ => 7) 1).path = [66] :=
    (writeRequest_spec (fun _ => 7) (by decide) (by decide) (by decide)).1.path_eq
  have hnone : directoryVolume.find (to83 [66]) (sampleLayout.slots [2]) = none := by
    decide +kernel
  have hslot : directoryVolume.freeSlot (sampleLayout.slots [2]) = some ⟨2, 0, 1⟩ := by
    decide +kernel
  have hfree : directoryVolume.firstFree sampleLayout = some 4 := by decide +kernel
  have hlive : (directoryVolume.entry ⟨2, 0, 1⟩).isLive = false := by decide +kernel
  have hgood : ¬ Breaks sampleLayout directoryVolume [2] (writeRequest [66] (fun _ => 7) 1) := by
    intro hbreaks
    cases hbreaks with
    | lostBelow _ _ _ hp =>
      rw [hpath, hnone] at hp
      cases hp
    | spelt _ _ _ _ hp =>
      rw [hpath, hnone] at hp
      cases hp
    | replaced _ _ _ _ hp hlink =>
      obtain rfl := Option.some.inj (hslot.symm.trans hp)
      have hl : (directoryVolume.entry ⟨2, 0, 1⟩).isLive = true := hlink.1
      rw [hlive] at hl
      cases hl
    | unseen _ _ _ hf _ _ hbad =>
      obtain rfl := Option.some.inj (hfree.symm.trans hf)
      rw [hpath] at hbad
      revert hbad
      decide
    | deleted htype =>
      revert htype
      decide
    | made htype =>
      revert htype
      decide
  exact ⟨hgood, (request_keeps_chains_iff (D := arrayDisk) (s := directoryServer) (fun _ _ => none)
    rfl directoryServer_consistent directoryServer_exactlyOne (.inl rfl)
    (by rw [hpath]; decide) (by decide)).mpr hgood _ ⟨rfl, rfl, rfl⟩⟩

/-- Deleting the directory leaves its cluster in use and on no chain. -/
theorem delete_orphans_directory :
    sampleLayout.Consistent directoryServer.disk 1 [2] directoryOwn ∧
    sampleLayout.ExactlyOne (sampleLayout.view directoryServer.disk) ∧
    ∃ s', serve arrayDisk.toDevice (fun _ _ => none) directoryServer
        ⟨3, fun i => if i = 0 then 68 else 0, 2⟩ = some (.replied [⟨200, []⟩] s') ∧
      ¬ sampleLayout.ExactlyOne (sampleLayout.view s'.disk) := by
  have hc := directoryServer_consistent
  have hone := directoryServer_exactlyOne
  refine ⟨hc, hone, ?_⟩
  have hpath : (⟨3, fun i => if i = 0 then 68 else 0, 2⟩ : Request).path = [68] := by decide +kernel
  have hp : directoryVolume.find (to83 [68]) (sampleLayout.slots [2]) = some ⟨2, 0, 0⟩ := by
    decide +kernel
  obtain ⟨b, d', V', hres, h', heffect⟩ := serve_root arrayDisk (fun _ _ => none)
    (s := directoryServer) ⟨3, fun i => if i = 0 then 68 else 0, 2⟩ rfl hc (.inr (.inl rfl))
    (by rw [hpath]; decide) (by decide)
  have hdelete := heffect.delete_of (.inl rfl)
  rw [hpath] at hdelete
  cases hdelete with
  | missing hnone =>
    have hno : directoryVolume.find (to83 [68]) (sampleLayout.slots [2]) = none := hnone
    rw [hp] at hno
    cases hno
  | deleted hq hlq =>
    obtain rfl := Option.some.inj (hp.symm.trans hq)
    refine ⟨_, hres, ?_⟩
    rw [show sampleLayout.view d' = _ from h'.view_eq]
    intro hone'
    refine (deleted_exactlyOne_iff hc.sound hone hp hlq).mp hone' ?_
    change (directoryVolume.entry ⟨2, 0, 0⟩).isDir = true ∧
      isLink (directoryVolume.entry ⟨2, 0, 0⟩).cluster = true
    rw [directoryVolume_entry]
    decide

end Sample

end Mukrn.Fat32
