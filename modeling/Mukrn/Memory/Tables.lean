import Mukrn.Memory.MapPage

/-! The page-table operations keep ownership. They take pages off the free list for tables of
one root and change no translation but that of the address they are called for. -/
namespace Mukrn
open ByteMemory PageTable

/-- Only free pages and pages of user data changed their use. -/
def KeepsUses (use use' : ℕ → Use) : Prop :=
  ∀ f, use f ≠ .free → use f ≠ .data → use' f = use f

theorem KeepsUses.trans {use use' use'' : ℕ → Use} (h : KeepsUses use use')
    (h' : KeepsUses use' use'') : KeepsUses use use'' := by
  intro f hf hd
  have he := h f hf hd
  rw [h' f (he ▸ hf) (he ▸ hd), he]

/-- At most `n` pages were taken off the free list, for uses that satisfy `new`; every other
page kept its use. -/
def Took (new : Use → Prop) (n : ℕ) (use : ℕ → Use) (fl : List ℕ) (use' : ℕ → Use)
    (fl' : List ℕ) : Prop :=
  ∃ taken : List ℕ, taken.length ≤ n ∧ fl = taken ++ fl' ∧ (∀ f ∈ taken, new (use' f)) ∧
    ∀ f, f ∉ taken → use' f = use f

namespace Took

variable {new new' : Use → Prop} {n n' : ℕ} {use use' use'' : ℕ → Use} {fl fl' fl'' : List ℕ}

theorem refl (new : Use → Prop) (n : ℕ) (use : ℕ → Use) (fl : List ℕ) :
    Took new n use fl use fl := ⟨[], n.zero_le, rfl, nofun, fun _ _ => rfl⟩

theorem trans (h : Took new n use fl use' fl') (h' : Took new n' use' fl' use'' fl'') :
    Took new (n + n') use fl use'' fl'' := by
  obtain ⟨a, ha, rfl, hnew, hold⟩ := h
  obtain ⟨b, hb, rfl, hnew', hold'⟩ := h'
  refine ⟨a ++ b, by rw [List.length_append]; omega, (List.append_assoc ..).symm, fun f hf => ?_,
    fun f hf => ?_⟩
  · by_cases hfb : f ∈ b
    · exact hnew' f hfb
    · rw [hold' f hfb]
      exact hnew f ((List.mem_append.mp hf).resolve_right hfb)
  · obtain ⟨hfa, hfb⟩ := not_or.mp (mt List.mem_append.mpr hf)
    rw [hold' f hfb, hold f hfa]

theorem mono (h : Took new n use fl use' fl') (hn : n ≤ n') (hnew : ∀ u, new u → new' u) :
    Took new' n' use fl use' fl' := by
  obtain ⟨a, ha, hfl, hu, hold⟩ := h
  exact ⟨a, ha.trans hn, hfl, fun f hf => hnew _ (hu f hf), hold⟩

theorem length_le (h : Took new n use fl use' fl') : fl.length ≤ fl'.length + n := by
  obtain ⟨a, ha, rfl, -⟩ := h
  rw [List.length_append]
  omega

theorem subset (h : Took new n use fl use' fl') {f : ℕ} (hf : f ∈ fl') : f ∈ fl := by
  obtain ⟨a, -, rfl, -⟩ := h
  exact List.mem_append_right a hf

/-- A page in use keeps its use. -/
theorem keeps {h : Machine} (ht : Took new n use fl use' fl') (ho : Owned use fl h) {f : ℕ}
    (hf : use f ≠ .free) : use' f = use f := by
  obtain ⟨a, -, rfl, -, hold⟩ := ht
  exact hold f fun hfa => hf ((ho.free f).mp (List.mem_append_left _ hfa))

theorem keepsUses {h : Machine} (ht : Took new n use fl use' fl') (ho : Owned use fl h) :
    KeepsUses use use' := fun _ hf _ => ht.keeps ho hf

theorem keeps_none {h : Machine} (ht : Took new n use fl use' fl') (ho : Owned use fl h) (f : ℕ)
    (hf : use f = .none) : use' f = .none := by
  rw [ht.keeps ho (by rw [hf]; exact nofun), hf]

theorem keeps_table {h : Machine} (ht : Took new n use fl use' fl') (ho : Owned use fl h)
    {f r : ℕ} {p : List ℕ} (hf : use f = .table r p) : use' f = .table r p := by
  rw [ht.keeps ho (by rw [hf]; exact nofun), hf]

/-- One page was taken. -/
theorem one {f : ℕ} {u : Use} (hu : new u) :
    Took new 1 use (f :: fl) (Function.update use f u) fl := by
  refine ⟨[f], le_rfl, rfl, fun g hg => ?_, fun g hg => ?_⟩
  · obtain rfl := List.mem_singleton.mp hg
    rwa [Function.update_self]
  · exact Function.update_of_ne (mt List.mem_singleton.mpr hg) ..

end Took

/-- A table under the root `r`. -/
def Use.IsTable (r : ℕ) (u : Use) : Prop := ∃ p, u = .table r p

/-- Only free pages and tables under the root `r` have other contents. -/
def Untouched (r : ℕ) (use : ℕ → Use) (m m' : Mem) : Prop :=
  ∀ f, f % 4096 = 0 → use f ≠ .free → ¬ (use f).IsTable r → ∀ a, f ≤ a → a < f + 4096 →
    m' a = m a

theorem Untouched.keepsUnused {r : ℕ} {use : ℕ → Use} {m m' : Mem} (h : Untouched r use m m') :
    KeepsUnused use m m' :=
  fun f hf hn => h f hf (by rw [hn]; exact nofun) (by rw [hn]; exact nofun)

section

variable {use use' use'' : ℕ → Use} {fl fl' fl'' : List ℕ} {h h' h'' : Machine} {r t i n n' : ℕ}
  {p : List ℕ}

/-- A table page gets other entries. -/
theorem Owned.setTable {m : Mem} (ho : Owned use fl h) (ht : use t = .table r p)
    (hm : ∀ a, a < t ∨ t + 4096 ≤ a → m a = h.mem a)
    (hok : p.length < 3 → ∀ i < 512, EntryOk (shape use) r p i (entry m t i)) :
    Owned use fl { h with mem := m } := by
  have htp := ho.page t (by rw [ht]; exact nofun)
  have hout {g : ℕ} (hg : g % 4096 = 0) (hne : g ≠ t) (a : ℕ) (h1 : g ≤ a) (h2 : a < g + 4096) :
      m a = h.mem a := hm a (by omega)
  have hother {g : ℕ} {u : Use} (hg : use g = u) (hu : u ≠ .none) (hut : u ≠ .table r p) :
      g % 4096 = 0 ∧ g ≠ t := by
    refine ⟨(ho.page g (hg ▸ hu)).1, ?_⟩
    rintro rfl
    exact hut (hg.symm.trans ht)
  refine ⟨ho.page, ?_, ho.nodup, ho.free, ?_, ?_, ho.templateUse⟩
  · refine ho.chain.congr fun g hg => ?_
    obtain ⟨hgp, hne⟩ := hother ((ho.free g).mp hg) nofun nofun
    exact load_congr fun j hj => hout hgp hne _ (by omega) (by omega)
  · refine ho.tree.setTable (shape_eq_some.mpr ht) (fun t' r' p' ht' hne i hi => ?_) hok
    exact entry_of_page (hout (ho.tree.aligned t' r' p' ht').1 hne) hi
  · refine ho.template.congr fun g hg => ?_
    obtain ⟨hgp, hne⟩ := hother ((ho.templateUse g).mp hg) nofun nofun
    exact hout hgp hne

theorem Owned.setEntry {v : ℕ} (ho : Owned use fl h) (ht : use t = .table r p) (hi : i < 512)
    (hv : v < 2 ^ 64) (hok : p.length < 3 → EntryOk (shape use) r p i v) :
    Owned use fl (setEntry h t i v) := by
  have htp := ho.page t (by rw [ht]; exact nofun)
  refine ho.setTable ht (fun a ha => fill_outside (by omega)) fun hp i' hi' => ?_
  by_cases he : i' = i
  · rw [he, entry_store_self hv]
    exact hok hp
  · rw [entry_store_ne htp.1 htp.1 hi hi' fun hh => he hh.2]
    exact ho.tree.entries t r p (shape_eq_some.mpr ht) hp i' hi'

/-- Translations only depend on the contents of table pages. -/
theorem Owned.walksAgree {m : Mem} {changed : ℕ → ℕ → Prop} (ho : Owned use fl h)
    (hm : ∀ t r p, use t = .table r p → ∀ a, t ≤ a → a < t + 4096 → m a = h.mem a) :
    WalksAgree (shape use) changed h.mem m := by
  intro ok ha r hr va _
  refine ho.tree.linked.walk_congr ha.present (fun t p ht i hi => ?_) hr rfl
  exact entry_of_page (hm t r p (shape_eq_some.mp ht)) hi

theorem Owned.walks_sameOutside {m : Mem} {pages : List ℕ} (ho : Owned use fl h)
    (hm : SameOutside pages h.mem m) (hp : ∀ f ∈ pages, ∀ r p, use f ≠ .table r p)
    (changed : ℕ → ℕ → Prop) : WalksAgree (shape use) changed h.mem m :=
  ho.walksAgree fun t r p ht _ => hm.page (ho.page t (by rw [ht]; exact nofun)).1
    fun hn => hp t hn r p ht

theorem Untouched.refl (r : ℕ) (use : ℕ → Use) (m : Mem) : Untouched r use m m :=
  fun _ _ _ _ _ _ _ => rfl

theorem Untouched.trans {new : Use → Prop} {m m' : Mem} (ho : Owned use fl h)
    (ht : Took new n use fl use' fl') (hu : Untouched r use h.mem m)
    (hu' : Untouched r use' m m') : Untouched r use h.mem m' := by
  intro f hf hfree htab a h1 h2
  have hk := ht.keeps ho hfree
  rw [hu' f hf (hk ▸ hfree) (hk ▸ htab) a h1 h2, hu f hf hfree htab a h1 h2]

/-- Building a new address space changes no translation of the others. -/
theorem Untouched.walksAgree {m : Mem} (ho : Owned use fl h) (hu : Untouched r use h.mem m)
    (hr : use r ≠ .table r []) (changed : ℕ → ℕ → Prop) :
    WalksAgree (shape use) changed h.mem m := by
  intro ok ha r' hr' va _
  have hne : r' ≠ r := by
    rintro rfl
    exact hr (shape_eq_some.mp hr')
  refine ho.tree.linked.walk_congr ha.present (fun t p ht i hi => ?_) hr' rfl
  have htu := shape_eq_some.mp ht
  refine entry_of_page (hu t (ho.tree.aligned _ _ _ ht).1 (by rw [htu]; exact nofun) ?_) hi
  rintro ⟨q, hq⟩
  exact hne (Use.table.inj (htu.symm.trans hq)).1

/-- Tables were added under a root without changing a translation. -/
structure Grown (r n : ℕ) (use : ℕ → Use) (fl : List ℕ) (h : Machine) (use' : ℕ → Use)
    (fl' : List ℕ) (h' : Machine) : Prop where
  owned : Owned use' fl' h'
  took : Took (Use.IsTable r) n use fl use' fl'
  walks : WalksAgree (shape use) (fun _ _ => False) h.mem h'.mem
  frame : Untouched r use h.mem h'.mem

theorem Grown.refl (r n : ℕ) (ho : Owned use fl h) : Grown r n use fl h use fl h :=
  ⟨ho, .refl .., fun _ _ _ _ _ _ => rfl, .refl _ _ _⟩

theorem Grown.trans (ho : Owned use fl h) (hg : Grown r n use fl h use' fl' h')
    (hg' : Grown r n' use' fl' h' use'' fl'' h'') : Grown r (n + n') use fl h use'' fl'' h'' := by
  refine ⟨hg'.owned, hg.took.trans hg'.took, hg.walks.trans hg'.walks fun r hr => ?_,
    hg.frame.trans ho hg.took hg'.frame⟩
  exact shape_eq_some.mpr (hg.took.keeps_table ho (shape_eq_some.mp hr))

/-- The link to a table with the bits the kernel gives it. -/
theorem entryOk_link {sh : Shape} {f bits : ℕ} (hf : f % 4096 = 0) (hb : bits = 3 ∨ bits = 7)
    (hsh : sh f = some (r, p ++ [i])) :
    present (f ||| bits) ∧ huge (f ||| bits) = false ∧ EntryOk sh r p i (f ||| bits) := by
  have hbits : bits < 4096 := by omega
  have hp : present (f ||| bits) := by
    rw [present_or hf hbits]
    rcases hb with rfl | rfl <;> rfl
  have hh : huge (f ||| bits) = false := by
    rw [huge_or hf hbits]
    rcases hb with rfl | rfl <;> rfl
  refine ⟨hp, hh, fun _ _ => hh, fun _ _ => ?_, fun _ hn => ?_⟩
  · rw [frameOf_or hf hbits, hsh]
  · rw [hp] at hn
    cases hn

section Link

variable {f : ℕ} {h1 : Machine} (ho : Owned use (f :: fl) h) (hr : use r = .table r [])
  (hat : TableAt present h.mem r p t) (hi : i < 512)
  (hm : ∀ a, a < f ∨ f + 4096 ≤ a → h1.mem a = h.mem a)
include ho hr hat hi hm

/-- Linking a page that already serves as a table of the next level. -/
private theorem linked {bits : ℕ} (hp : p.length < 3) (hb : bits = 3 ∨ bits = 7)
    (howned : Owned (Function.update use f (.table r (p ++ [i]))) fl h1)
    (hw : WalksAgree (shape use) (fun _ _ => False) h.mem (setEntry h1 t i (f ||| bits)).mem) :
    ∃ use', Grown r 1 use (f :: fl) h use' fl (setEntry h1 t i (f ||| bits)) ∧
      TableAt present (setEntry h1 t i (f ||| bits)).mem r (p ++ [i])
        (frameOf (entry (setEntry h1 t i (f ||| bits)).mem t i)) := by
  have hL := ho.tree.linked
  have hsr := shape_eq_some.mpr hr
  have hst := hL.tableAt access_present.present hsr hat
  have ht := shape_eq_some.mp hst
  obtain ⟨-, hf0, hfpos, hf64⟩ := ho.head
  have htf : t ≠ f := ho.ne_head (by rw [ht]; exact nofun)
  have hbits : bits < 4096 := by omega
  have hv := or_lt hf0 hbits hf64
  obtain ⟨hpv, hhv, hok⟩ := entryOk_link hf0 hb
    (shape_eq_some.mpr (Function.update_self f (.table r (p ++ [i])) use))
  have he : entry (setEntry h1 t i (f ||| bits)).mem t i = f ||| bits := entry_store_self hv
  refine ⟨Function.update use f (.table r (p ++ [i])), ⟨?_, .one ⟨_, rfl⟩, hw, ?_⟩, ?_⟩
  · have ht' : Function.update use f (.table r (p ++ [i])) t = .table r p := by
      rw [Function.update_of_ne htf, ht]
    exact howned.setEntry ht' hi hv fun _ => hok
  · intro g hg hfree htab a h1 h2
    have hgf : g ≠ f := ho.ne_head hfree
    have hgt : g ≠ t := fun he => htab ⟨p, by rw [he, ht]⟩
    have ht0 := (ho.tree.aligned t r p hst).1
    exact (setEntry_outside _ _ hi (by omega)).trans (hm a (by omega))
  · rw [he]
    exact tableAt_linked hL hst hi hf0 ho.shape_head hm hsr hat hp hv hpv hhv

end Link

/-- The table below an entry: found, or taken from the free list. -/
theorem ensureTable_spec {bits : ℕ} (ho : Owned use fl h) (hr : use r = .table r [])
    (hat : TableAt present h.mem r p t) (hp : p.length < 3) (hi : i < 512)
    (hb : bits = 3 ∨ bits = 7)
    (hl : present (entry h.mem t i) → p = [] ∨ huge (entry h.mem t i) = false) :
    (fl = [] ∧ ensureTable h t i bits = none) ∨ ∃ h' e use' fl',
      ensureTable h t i bits = some (h', e) ∧ Grown r 1 use fl h use' fl' h' ∧
        TableAt present h'.mem r (p ++ [i]) (frameOf e) := by
  by_cases hpres : present (entry h.mem t i)
  · refine .inr ⟨h, entry h.mem t i, use, fl, ?_, .refl r 1 ho, ?_⟩
    · rw [ensureTable, if_pos hpres]
    · exact .next hat hi hp hpres (hl hpres)
  cases fl with
  | nil =>
    refine .inl ⟨rfl, ?_⟩
    rw [ensureTable, if_neg hpres, ho.alloc_nil]
    rfl
  | cons f fl =>
    have hst := ho.tree.linked.tableAt access_present.present (shape_eq_some.mpr hr) hat
    obtain ⟨-, hf0, hfpos, hf64⟩ := ho.head
    have hw : WalksAgree (shape use) (fun _ _ => False) h.mem
        (setEntry (h.take f) t i (f ||| bits)).mem :=
      walks_linked ho.tree.linked hst hi hf0 ho.shape_head hp hf64 hb (by simpa using hpres)
    obtain ⟨use', hg, hat'⟩ := linked ho hr hat hi (fun a ha => h.take_outside ha) hp hb
      (ho.alloc (by simp) (by simp) (by simp)) hw
    refine .inr ⟨_, _, use', fl, ?_, hg, hat'⟩
    rw [ensureTable, if_neg hpres, ho.alloc_eq]
    simp only [if_neg hfpos.ne']

/-- Splitting a 2 MiB leaf changes no translation. -/
theorem splitHuge_spec (ho : Owned use fl h) (hr : use r = .table r [])
    (hat : TableAt present h.mem r p t) (hp : p.length = 2) (hi : i < 512)
    (hh : huge (entry h.mem t i)) :
    (fl = [] ∧ splitHuge h t i = none) ∨ ∃ h' e use' fl',
      splitHuge h t i = some (h', e) ∧ Grown r 1 use fl h use' fl' h' ∧
        TableAt present h'.mem r (p ++ [i]) (frameOf e) := by
  cases fl with
  | nil =>
    refine .inl ⟨rfl, ?_⟩
    rw [splitHuge, ho.alloc_nil]
    rfl
  | cons f fl =>
    have hst := ho.tree.linked.tableAt access_present.present (shape_eq_some.mpr hr) hat
    obtain ⟨-, hf0, hfpos, hf64⟩ := ho.head
    have hm (a : ℕ) (ha : a < f ∨ f + 4096 ≤ a) := h.takeParts_outside (entry h.mem t i) ha
    have howned : Owned (Function.update use f (.table r (p ++ [i]))) fl
        (h.takeParts f (entry h.mem t i)) := by
      have hzero := ho.alloc (u := .table r (p ++ [i])) (by simp) (by simp) (by simp)
      refine hzero.write hf0 ?_ fun a ha => storeWords_outside (n := 512) ha
      rw [Function.update_self]
      simp [Use.Critical, hp]
    have hw : WalksAgree (shape use) (fun _ _ => False) h.mem
        (setEntry (h.takeParts f (entry h.mem t i)) t i (f ||| 7)).mem :=
      walks_parts ho.tree.linked hst hi hf0 ho.shape_head hp hf64 hh
    obtain ⟨use', hg, hat'⟩ := linked ho hr hat hi hm (by omega) (.inr rfl) howned hw
    refine .inr ⟨_, _, use', fl, ?_, hg, hat'⟩
    rw [splitHuge, ho.alloc_eq]
    simp only [if_neg hfpos.ne']
    rfl

theorem ensurePt_spec (ho : Owned use fl h) (hr : use r = .table r [])
    (hat : TableAt present h.mem r p t) (hp : p.length = 2) (hi : i < 512) :
    (fl = [] ∧ ensurePt h t i = none) ∨ ∃ h' e use' fl',
      ensurePt h t i = some (h', e) ∧ Grown r 1 use fl h use' fl' h' ∧
        TableAt present h'.mem r (p ++ [i]) (frameOf e) := by
  by_cases hc : (present (entry h.mem t i) && huge (entry h.mem t i)) = true
  · rw [ensurePt, if_pos hc]
    exact splitHuge_spec ho hr hat hp hi (Bool.and_eq_true_iff.mp hc).2
  · rw [ensurePt, if_neg hc]
    refine ensureTable_spec ho hr hat (by omega) hi (.inr rfl) fun hpres => .inr ?_
    simpa [hpres] using hc

/-- An entry written on the way of an address, after tables have been added for it. -/
private theorem setOnTrail {virt d v : ℕ} (ho : Owned use fl h) (hr : use r = .table r [])
    (hg : Grown r n use fl h use' fl' h') (hat : TableAt present h'.mem r (trail virt d) t)
    (hd : d ≤ 3) (hv : v < 2 ^ 64)
    (hok : d < 3 → EntryOk (shape use') r (trail virt d) (index (3 - d) virt) v) :
    Owned use' fl' (setEntry h' t (index (3 - d) virt) v) ∧
      WalksAgree (shape use) (fun r' va => r' = r ∧ trail va (d + 1) = trail virt (d + 1)) h.mem
        (setEntry h' t (index (3 - d) virt) v).mem ∧
      Untouched r use h.mem (setEntry h' t (index (3 - d) virt) v).mem ∧
      TableAt present (setEntry h' t (index (3 - d) virt) v).mem r (trail virt d) t ∧
      entry (setEntry h' t (index (3 - d) virt) v).mem t (index (3 - d) virt) = v := by
  have hr' := hg.took.keeps_table ho hr
  have hsr := shape_eq_some.mpr hr'
  have hst := hg.owned.tree.linked.tableAt access_present.present hsr hat
  have hi := index_lt (3 - d) virt
  have hag (t' r' : ℕ) (p' : List ℕ) (ht' : shape use' t' = some (r', p')) (i' : ℕ)
      (hi' : i' < 512) (hne : ¬ (t' = t ∧ i' = index (3 - d) virt)) :
      entry (setEntry h' t (index (3 - d) virt) v).mem t' i' = entry h'.mem t' i' :=
    entry_store_ne (hg.owned.tree.aligned _ _ _ hst).1 (hg.owned.tree.aligned _ _ _ ht').1 hi hi'
      hne
  have hset := hg.owned.tree.linked.walks_set hst (by rwa [trail_length]) hag
  rw [trail_length, ← trail_succ] at hset
  have hset' : Untouched r use' h'.mem (setEntry h' t (index (3 - d) virt) v).mem := by
    intro g hg0 hfree htab a h1 h2
    have hgt : g ≠ t := fun he => htab ⟨_, by rw [he, shape_eq_some.mp hst]⟩
    have ht0 := (hg.owned.tree.aligned _ _ _ hst).1
    exact setEntry_outside _ _ hi (by omega)
  refine ⟨hg.owned.setEntry (shape_eq_some.mp hst) hi hv (by rwa [trail_length]), ?_,
    hg.frame.trans ho hg.took hset', ?_, entry_store_self hv⟩
  · exact (hg.walks.mono fun _ _ hf => hf.elim).trans hset fun r' hr'' =>
      shape_eq_some.mpr (hg.took.keeps_table ho (shape_eq_some.mp hr''))
  · refine hat.congr hg.owned.tree.linked access_present.present hsr fun t' q ht' hq i' hi' => ?_
    refine hag t' r q ht' i' hi' ?_
    rintro ⟨rfl, -⟩
    obtain ⟨-, rfl⟩ := Prod.mk.inj (Option.some.inj (hst.symm.trans ht'))
    exact lt_irrefl _ hq

end

/-- What `map_page` does under the active root. -/
structure Mapped (virt phys : ℕ) (use : ℕ → Use) (fl : List ℕ) (h : Machine) (use' : ℕ → Use)
    (fl' : List ℕ) (h' : Machine) : Prop where
  owned : Owned use' fl' h'
  took : Took (Use.IsTable h.pagingRoot) 3 use fl use' fl'
  walks : WalksAgree (shape use) (fun r va => r = h.pagingRoot ∧ Touches virt phys va) h.mem h'.mem
  frame : Untouched h.pagingRoot use h.mem h'.mem
  mapped : 3 ≤ fl.length → ∀ va, trail va 4 = trail virt 4 →
    walk present h'.mem va 3 h.pagingRoot = some (phys + va % 4096)
  target : ∀ ok, Access ok → ∀ va pa, walk ok h'.mem va 3 h.pagingRoot = some pa →
    walk ok h.mem va 3 h.pagingRoot = some pa ∨ Touches virt phys va ∧ pa = mappedTo virt phys va

/-- The same for flags that need not make the page present. With enough free pages a 4 KiB page
has a table of its own. -/
structure Placed (virt phys flags : ℕ) (use : ℕ → Use) (fl : List ℕ) (h : Machine) (use' : ℕ → Use)
    (fl' : List ℕ) (h' : Machine) : Prop where
  owned : Owned use' fl' h'
  took : Took (Use.IsTable h.pagingRoot) 3 use fl use' fl'
  walks : WalksAgree (shape use) (fun r va => r = h.pagingRoot ∧ Touches virt phys va) h.mem h'.mem
  frame : Untouched h.pagingRoot use h.mem h'.mem
  mapped : present flags → 3 ≤ fl.length → ∀ va, trail va 4 = trail virt 4 →
    walk present h'.mem va 3 h.pagingRoot = some (phys + va % 4096)
  target : ∀ ok, Access ok → ∀ va pa, walk ok h'.mem va 3 h.pagingRoot = some pa →
    walk ok h.mem va 3 h.pagingRoot = some pa ∨ Touches virt phys va ∧ pa = mappedTo virt phys va
  table : 3 ≤ fl.length → ¬ (virt % 2 ^ 21 = 0 ∧ phys % 2 ^ 21 = 0) →
    ∃ t, TableAt present h'.mem h.pagingRoot (trail virt 3) t

section

variable {use use' : ℕ → Use} {fl fl' : List ℕ} {h h' : Machine} {virt phys flags n : ℕ}

theorem missingTables_le (h : Machine) (virt phys : ℕ) : missingTables h virt phys ≤ 3 := by
  simp only [missingTables]
  split <;> split <;> (try split) <;> (try split) <;> omega

/-- `map_page` takes pages for tables of the active root only. -/
private theorem mapPage_owned (virt : ℕ) (ho : Owned use fl h)
    (hr : use h.pagingRoot = .table h.pagingRoot []) (hphys : phys % 4096 = 0) (hlt : phys < 2 ^ 64)
    (hf : flags < 128) :
    ∃ use' fl', Owned use' fl' (mapPage h virt phys flags) ∧
      Took (Use.IsTable h.pagingRoot) 3 use fl use' fl' ∧
      Untouched h.pagingRoot use h.mem (mapPage h virt phys flags).mem := by
  rcases ensureTable_spec ho hr .root (by decide) (index_lt 3 virt) (.inl rfl)
    (fun _ => .inl rfl) with ⟨hnil, he1⟩ | ⟨h1, e1, use1, fl1, he1, hg1, hat1⟩
  · have he1 : ensureTable h h.pagingRoot (pml4Index virt) 3 = none := he1
    rw [mapPage, he1]
    exact ⟨use, fl, ho, .refl .., .refl _ _ _⟩
  have he1 : ensureTable h h.pagingRoot (pml4Index virt) 3 = some (h1, e1) := he1
  have hr1 := hg1.took.keeps_table ho hr
  have hst1 := hg1.owned.tree.linked.tableAt access_present.present (shape_eq_some.mpr hr1) hat1
  rcases ensureTable_spec hg1.owned hr1 hat1 (by simp) (index_lt 2 virt) (.inl rfl)
    (fun hp => .inr ((hg1.owned.tree.entries _ _ _ hst1 (by simp) _ (index_lt 2 virt)).flat
      rfl hp)) with ⟨hnil, he2⟩ | ⟨h2, e2, use2, fl2, he2, hg2, hat2⟩
  · have he2 : ensureTable h1 (frameOf e1) (pdptIndex virt) 3 = none := he2
    rw [mapPage, he1]
    simp only [he2]
    exact ⟨use1, fl1, hg1.owned, hg1.took.mono (by decide) fun _ hu => hu, hg1.frame⟩
  have he2 : ensureTable h1 (frameOf e1) (pdptIndex virt) 3 = some (h2, e2) := he2
  have hg2 := hg1.trans ho hg2
  have hr2 := hg2.took.keeps_table ho hr
  by_cases hc : virt % 2 ^ 21 = 0 ∧ phys % 2 ^ 21 = 0
  · have hh : huge (phys + (flags + 128)) = true := by
      simp only [huge, beq_iff_eq]
      omega
    obtain ⟨howned, -, hframe, -⟩ := setOnTrail (d := 2) ho hr hg2 hat2 (by decide)
      (show phys + (flags + 128) < 2 ^ 64 by omega) fun _ =>
      ⟨fun h1 => by simp at h1, fun _ hn => absurd ⟨trail_length virt 2, hh⟩ hn,
        fun _ _ hn => by rw [hh] at hn; cases hn⟩
    have heq : mapPage h virt phys flags =
        setEntry h2 (frameOf e2) (index (3 - 2) virt) (phys + (flags + 128)) := by
      rw [mapPage, he1]
      simp only [he2, if_pos hc, hugeLeaf_eq hphys hf]
      rfl
    rw [heq]
    exact ⟨use2, fl2, howned, hg2.took.mono (by decide) fun _ hu => hu, hframe⟩
  rcases ensurePt_spec hg2.owned hr2 hat2 rfl (index_lt 1 virt) with
    ⟨hnil, he3⟩ | ⟨h3, e3, use3, fl3, he3, hg3, hat3⟩
  · have he3 : ensurePt h2 (frameOf e2) (pdtIndex virt) = none := he3
    rw [mapPage, he1]
    simp only [he2, if_neg hc, he3]
    exact ⟨use2, fl2, hg2.owned, hg2.took.mono (by decide) fun _ hu => hu, hg2.frame⟩
  have he3 : ensurePt h2 (frameOf e2) (pdtIndex virt) = some (h3, e3) := he3
  have hg3 := hg2.trans ho hg3
  obtain ⟨howned, -, hframe, -⟩ := setOnTrail (d := 3) ho hr hg3 hat3 (by decide)
    (or_lt hphys (show flags < 4096 by omega) hlt) fun h3 => absurd h3 (by decide)
  have heq : mapPage h virt phys flags =
      setEntry h3 (frameOf e3) (index (3 - 3) virt) (phys ||| flags) := by
    rw [mapPage, he1]
    simp only [he2, if_neg hc, he3]
    rfl
  rw [heq]
  exact ⟨use3, fl3, howned, hg3.took, hframe⟩

/-- The addresses of a mapped page lead to its frame. -/
theorem mappedTo_page {va : ℕ} (hva : trail va 4 = trail virt 4) :
    mappedTo virt phys va = phys + va % 4096 := by
  have h0 := (trail_last hva).2
  simp only [index] at h0
  rw [mappedTo]
  split <;> omega

theorem mapPage_placed (virt : ℕ) (ho : Owned use fl h)
    (hr : use h.pagingRoot = .table h.pagingRoot [])
    (hphys : phys % 4096 = 0) (hlt : phys < 2 ^ 64) (hf : flags < 128) :
    ∃ use' fl', Placed virt phys flags use fl h use' fl' (mapPage h virt phys flags) := by
  obtain ⟨use', fl', howned, htook, hframe⟩ := mapPage_owned virt ho hr hphys hlt hf
  have hsr := shape_eq_some.mpr hr
  have hle := missingTables_le h virt phys
  refine ⟨use', fl', ?_⟩
  rcases mapPage_apart virt ho.apart hsr hphys hlt hf with
    ⟨hshort, n, sh', hx⟩ | ⟨henough, sh', fl'', hm⟩
  · refine ⟨howned, htook, hx.walks.mono fun _ _ hf => hf.elim, hframe, fun _ h3 => by omega,
      fun ok ha va pa hw => .inl ?_, fun h3 => by omega⟩
    rwa [hx.walks ok ha _ hsr va id] at hw
  · refine ⟨howned, htook, hm.walks, hframe, fun hpf _ va hva => ?_, fun ok ha va pa hw => ?_,
      fun _ hc => ?_⟩
    · rw [hm.mapped hpf va (.inl hva), mappedTo_page hva]
    · by_cases hva : Touches virt phys va
      · exact .inr ⟨hva, hm.target ok va pa hva hw⟩
      · rw [hm.walks ok ha _ hsr va fun hn => hva hn.2] at hw
        exact .inl hw
    · obtain ⟨t, hat, -⟩ := hm.leaf
      rw [if_neg hc] at hat
      exact ⟨t, hat⟩

theorem mapPage_spec (ho : Owned use fl h) (hr : use h.pagingRoot = .table h.pagingRoot [])
    (hphys : phys % 4096 = 0) (hlt : phys < 2 ^ 64) (hf : flags < 128) (hpf : present flags) :
    ∃ use' fl', Mapped virt phys use fl h use' fl' (mapPage h virt phys flags) := by
  obtain ⟨use', fl', hm⟩ := mapPage_placed virt ho hr hphys hlt hf
  exact ⟨use', fl', hm.owned, hm.took, hm.walks, hm.frame, hm.mapped hpf, hm.target⟩

theorem clearPresent_lt (e : ℕ) (he : e < 2 ^ 64) : clearPresent e < 2 ^ 64 :=
  (Nat.div_mul_le_self e 2).trans_lt he

theorem present_clearPresent (e : ℕ) : present (clearPresent e) = false := by
  simp only [present, clearPresent, beq_eq_false_iff_ne]
  omega

/-- A 2 MiB leaf made absent is still marked as one. -/
theorem huge_clearPresent {e : ℕ} (hh : huge e) : huge (clearPresent e) = true := by
  simp only [huge, clearPresent, beq_iff_eq] at hh ⊢
  omega

private theorem entryOk_clearPresent {sh : Shape} {r i e : ℕ} {p : List ℕ} (hh : huge e)
    (hp : p.length = 2) : EntryOk sh r p i (clearPresent e) := by
  have hp' := present_clearPresent e
  have hh' := huge_clearPresent hh
  refine ⟨fun h1 => by omega, fun hn => ?_, fun _ _ hn => ?_⟩
  · rw [hp'] at hn
    cases hn
  · rw [hh'] at hn
    cases hn

/-- The table the third-level entry of an address is in. -/
private theorem tableAt_two {r virt : ℕ} (ho : Owned use fl h) (hr : use r = .table r [])
    (h1 : present (entry h.mem r (pml4Index virt)))
    (h2 : present (entry h.mem (frameOf (entry h.mem r (pml4Index virt))) (pdptIndex virt))) :
    huge (entry h.mem (frameOf (entry h.mem r (pml4Index virt))) (pdptIndex virt)) = false ∧
      TableAt present h.mem r (trail virt 2) (frameOf
        (entry h.mem (frameOf (entry h.mem r (pml4Index virt))) (pdptIndex virt))) := by
  have hat1 : TableAt present h.mem r [index 3 virt] (frameOf (entry h.mem r (pml4Index virt))) :=
    .next .root (index_lt 3 virt) (by decide) h1 (.inl rfl)
  have hst1 := ho.tree.linked.tableAt access_present.present (shape_eq_some.mpr hr) hat1
  have hflat := (ho.tree.entries _ _ _ hst1 (by simp) _ (index_lt 2 virt)).flat rfl h2
  exact ⟨hflat, hat1.next (index_lt 2 virt) (by simp) h2 (.inr hflat)⟩

/-- An entry on the way of an address is made absent: the addresses that lead to it are no longer
translated, and none is translated anew. -/
private theorem clearOnTrail {r virt d v t : ℕ} (ho : Owned use fl h) (hr : use r = .table r [])
    (hat : TableAt present h.mem r (trail virt d) t) (hd : d ≤ 3) (hv : v < 2 ^ 64)
    (hok : d < 3 → EntryOk (shape use) r (trail virt d) (index (3 - d) virt) v)
    (hp : present v = false) :
    Owned use fl (setEntry h t (index (3 - d) virt) v) ∧
      WalksAgree (shape use) (fun r' va => r' = r ∧ trail va (d + 1) = trail virt (d + 1)) h.mem
        (setEntry h t (index (3 - d) virt) v).mem ∧
      Untouched r use h.mem (setEntry h t (index (3 - d) virt) v).mem ∧
      (∀ ok, Access ok → ∀ va, trail va (d + 1) = trail virt (d + 1) →
        walk ok (setEntry h t (index (3 - d) virt) v).mem va 3 r = none) ∧
      ∀ ok, Access ok → ∀ va pa, walk ok (setEntry h t (index (3 - d) virt) v).mem va 3 r =
      some pa →
        walk ok h.mem va 3 r = some pa := by
  obtain ⟨howned, hwalks, hframe, hat', he⟩ := setOnTrail ho hr (Grown.refl r 0 ho) hat hd hv hok
  have habs (ok : ℕ → Bool) (ha : Access ok) (va : ℕ)
      (hva : trail va (d + 1) = trail virt (d + 1)) :
      walk ok (setEntry h t (index (3 - d) virt) v).mem va 3 r = none := by
    have hno : ok v = false := by
      by_contra hn
      rw [ha.present v (by simpa using hn)] at hp
      cases hp
    obtain ⟨htr, hidx⟩ := trail_last hva
    by_contra hsome
    obtain ⟨pa, hw⟩ := Option.ne_none_iff_exists'.mp hsome
    have hl := hat'.walk_of_some (by rwa [trail_length]) (l := 3 - d)
      (by rw [trail_length]; omega) hw
    cases hd3 : 3 - d with
    | zero =>
      rw [hd3] at hl he hidx
      simp only [walk, hidx, he, hno, Bool.false_eq_true, if_false] at hl
      cases hl
    | succ l =>
      rw [hd3] at hl he hidx
      simp only [walk, hidx, he, hno, Bool.not_false, if_true] at hl
      cases hl
  refine ⟨howned, hwalks, hframe, habs, fun ok ha va pa hw => ?_⟩
  by_cases hva : trail va (d + 1) = trail virt (d + 1)
  · rw [habs ok ha va hva] at hw
    cases hw
  · rwa [hwalks ok ha r (shape_eq_some.mpr hr) va fun hn => hva hn.2] at hw

/-- What `unmap_page` does under the active root: it writes one of the root's tables, or page 0
under an absent entry. -/
structure Unmapped (changed : ℕ → Prop) (use : ℕ → Use) (fl : List ℕ) (h h' : Machine) : Prop where
  owned : Owned use fl h'
  walks : WalksAgree (shape use) (fun r va => r = h.pagingRoot ∧ changed va) h.mem h'.mem
  target : ∀ ok, Access ok → ∀ va pa, walk ok h'.mem va 3 h.pagingRoot = some pa →
    walk ok h.mem va 3 h.pagingRoot = some pa
  root : h'.pagingRoot = h.pagingRoot

theorem Unmapped.refl (changed : ℕ → Prop) (ho : Owned use fl h) : Unmapped changed use fl h h :=
  ⟨ho, fun _ _ _ _ _ _ => rfl, fun _ _ _ _ hw => hw, rfl⟩

theorem Unmapped.trans {changed : ℕ → Prop} {h'' : Machine} (hu : Unmapped changed use fl h h')
    (hu' : Unmapped changed use fl h' h'') : Unmapped changed use fl h h'' := by
  obtain ⟨howned', hwalks', htarget', hroot'⟩ := hu'
  rw [hu.root] at hwalks' htarget'
  exact ⟨howned', hu.walks.trans hwalks' fun _ hr => hr,
    fun ok ha va pa hw => hu.target ok ha va pa (htarget' ok ha va pa hw), hroot'.trans hu.root⟩

/-- Page 0 is no table. -/
private theorem Unmapped.zeroPage (changed : ℕ → Prop) {m : Mem} (ho : Owned use fl h)
    (hr : use h.pagingRoot = .table h.pagingRoot []) (hm : ∀ a, 4096 ≤ a → m a = h.mem a) :
    Unmapped changed use fl h { h with mem := m } := by
  have hsame (changed : ℕ → ℕ → Prop) : WalksAgree (shape use) changed h.mem m := by
    refine ho.walksAgree fun t r p ht a h1 _ => hm a ?_
    have htp := ho.page t (by rw [ht]; exact nofun)
    omega
  refine ⟨ho.write (g := 0) rfl (by rw [ho.use_zero]; exact id) fun a ha => hm a (by omega),
    hsame _, fun ok ha va pa hw => ?_, rfl⟩
  exact (hsame (fun _ _ => False) ok ha _ (shape_eq_some.mpr hr) va id).symm.trans hw

/-- Only the root's tables and page 0 are written. -/
def WritesTables (r : ℕ) (use : ℕ → Use) (m m' : Mem) : Prop :=
  ∀ f, f % 4096 = 0 → 0 < f → use f ≠ .free → ¬ (use f).IsTable r → ∀ a, f ≤ a → a < f + 4096 →
    m' a = m a

private theorem unmapPage_effect (ho : Owned use fl h)
    (hr : use h.pagingRoot = .table h.pagingRoot []) (virt : ℕ) :
    Unmapped (fun va => trail va 3 = trail virt 3) use fl h (unmapPage h virt) ∧
      WritesTables h.pagingRoot use h.mem (unmapPage h virt).mem := by
  have hnone : Unmapped (fun va => trail va 3 = trail virt 3) use fl h h ∧
      WritesTables h.pagingRoot use h.mem h.mem :=
    ⟨.refl _ ho, fun _ _ _ _ _ _ _ _ => rfl⟩
  unfold unmapPage
  simp only
  split
  · exact hnone
  next h1 =>
  split
  · exact hnone
  next h2 =>
  obtain ⟨hflat, hat⟩ := tableAt_two ho hr (by simpa using h1) (by simpa using h2)
  rw [if_neg (by rw [hflat]; decide)]
  have hst := ho.tree.linked.tableAt access_present.present (shape_eq_some.mpr hr) hat
  have hlen := trail_length virt 2
  split
  next hh =>
    obtain ⟨howned, hwalks, hframe, -, htarget⟩ := clearOnTrail (d := 2) ho hr hat (by decide)
      (clearPresent_lt _ (load64_lt _ _)) (fun _ => entryOk_clearPresent hh hlen)
      (present_clearPresent _)
    exact ⟨⟨howned, hwalks, htarget, rfl⟩, fun f hf _ => hframe f hf⟩
  next hh =>
    have hok := ho.tree.entries _ _ _ hst (by omega) _ (index_lt 1 virt)
    by_cases hp : present (entry h.mem (frameOf (entry h.mem (frameOf (entry h.mem h.pagingRoot
        (pml4Index virt))) (pdptIndex virt))) (index 1 virt))
    · have hat3 : TableAt present h.mem h.pagingRoot (trail virt 3) _ :=
        hat.next (index_lt 1 virt) (by rw [hlen]; decide) hp (.inr (Bool.eq_false_iff.mpr hh))
      obtain ⟨howned, hwalks, hframe, -, htarget⟩ := clearOnTrail (d := 3) ho hr hat3 le_rfl
        (clearPresent_lt _ (load64_lt _ _)) (fun hn => absurd hn (by decide))
        (present_clearPresent _)
      exact ⟨⟨howned, hwalks.mono fun r va hva => ⟨hva.1, (trail_last hva.2).1⟩, htarget, rfl⟩,
        fun f hf _ => hframe f hf⟩
    · have h0 := hok.vacant hlen (by simpa using hp) (Bool.eq_false_iff.mpr hh)
      have hidx := index_lt 0 virt
      have hsame {t v : ℕ} (ht : t = 0) (a : ℕ) (ha : 4096 ≤ a) :
          (setEntry h t (ptIndex virt) v).mem a = h.mem a := setEntry_outside _ _ hidx (by omega)
      have hu {t : ℕ} (ht : t = 0) (v : ℕ) : Unmapped (fun va => trail va 3 = trail virt 3) use fl h
        (setEntry h t (ptIndex virt) v) := .zeroPage _ ho hr (hsame ht)
      exact ⟨hu h0 _, fun f _ hpos _ _ a ha _ => hsame h0 a (by omega)⟩

theorem unmapPage_spec (ho : Owned use fl h) (hr : use h.pagingRoot = .table h.pagingRoot [])
    (virt : ℕ) :
    Unmapped (fun va => trail va 3 = trail virt 3) use fl h (unmapPage h virt) :=
  (unmapPage_effect ho hr virt).1

theorem unmapPage_writes (ho : Owned use fl h) (hr : use h.pagingRoot = .table h.pagingRoot [])
    (virt : ℕ) : WritesTables h.pagingRoot use h.mem (unmapPage h virt).mem :=
  (unmapPage_effect ho hr virt).2

/-- The third-level entry of an address is a 2 MiB leaf. -/
def HugeAt (m : Mem) (r virt : ℕ) : Prop :=
  ∃ t, TableAt present m r (trail virt 2) t ∧ present (entry m t (pdtIndex virt)) ∧
    huge (entry m t (pdtIndex virt))

theorem withFlags_lt {e : ℕ} (he : e < 2 ^ 64) (flags : ℕ) : withFlags e flags < 2 ^ 64 := by
  refine Nat.or_lt_two_pow ?_ (by omega)
  exact (Nat.div_mul_le_self e 512).trans_lt he

theorem withFlags_eq (e flags : ℕ) : withFlags e flags = 512 * (e / 512) + flags % 512 := by
  have hlow : flags % 512 < 2 ^ 9 := Nat.mod_lt _ (by decide)
  rw [withFlags, Nat.mul_comm (e / 512)]
  exact (Nat.two_pow_add_eq_or_of_lt (i := 9) hlow (e / 512)).symm

/-- New flags leave the frame of a 4 KiB leaf as it was. -/
theorem leaf_withFlags (e flags va : ℕ) : leaf 0 (withFlags e flags) va = leaf 0 e va := by
  simp only [leaf, withFlags_eq, Nat.mul_zero, Nat.add_zero]
  omega

/-- What `map_page_flags` does where there is no 2 MiB leaf: it writes a last-level table at
most, and an address that is translated goes to the same frame as before. -/
structure Reflagged (changed : ℕ → Prop) (use : ℕ → Use) (fl : List ℕ) (h h' : Machine) : Prop where
  owned : Owned use fl h'
  walks : WalksAgree (shape use) (fun r va => r = h.pagingRoot ∧ changed va) h.mem h'.mem
  target : ∀ ok, Access ok → ∀ va pa, walk ok h'.mem va 3 h.pagingRoot = some pa →
    walk present h.mem va 3 h.pagingRoot = some pa
  upper : ∀ t r p, use t = .table r p → p.length < 3 → ∀ i < 512,
    entry h'.mem t i = entry h.mem t i
  root : h'.pagingRoot = h.pagingRoot

theorem walk_mono {ok ok' : ℕ → Bool} {m : Mem} {va pa : ℕ} (hok : ∀ e, ok e → ok' e)
    {l t : ℕ} (hw : walk ok m va l t = some pa) : walk ok' m va l t = some pa := by
  induction l generalizing t with
  | zero =>
    simp only [walk] at hw ⊢
    split at hw
    next he => rwa [if_pos (hok _ he)]
    · cases hw
  | succ l ih =>
    simp only [walk] at hw ⊢
    split at hw
    · cases hw
    next he =>
      rw [hok _ (by simpa using he)]
      simp only [Bool.not_true, Bool.false_eq_true, if_false]
      split at hw
      next hh => rwa [if_pos hh]
      next hh =>
        rw [if_neg hh]
        exact ih hw

theorem Reflagged.refl (changed : ℕ → Prop) (ho : Owned use fl h) : Reflagged changed use fl h h :=
  ⟨ho, fun _ _ _ _ _ _ => rfl, fun _ ha _ _ hw => walk_mono ha.present hw,
    fun _ _ _ _ _ _ _ => rfl, rfl⟩

theorem Reflagged.trans {changed : ℕ → Prop} {h'' : Machine} (hf : Reflagged changed use fl h h')
    (hf' : Reflagged changed use fl h' h'') : Reflagged changed use fl h h'' := by
  obtain ⟨howned', hwalks', htarget', hupper', hroot'⟩ := hf'
  rw [hf.root] at hwalks' htarget'
  exact ⟨howned', hf.walks.trans hwalks' fun _ hr => hr,
    fun ok ha va pa hw => hf.target present access_present va pa (htarget' ok ha va pa hw),
    fun t r p ht hp i hi => (hupper' t r p ht hp i hi).trans (hf.upper t r p ht hp i hi),
    hroot'.trans hf.root⟩

theorem mapPageFlags_spec (ho : Owned use fl h) (hr : use h.pagingRoot = .table h.pagingRoot [])
    (flags : ℕ) (hn : ¬ HugeAt h.mem h.pagingRoot virt) :
    Reflagged (fun va => trail va 4 = trail virt 4) use fl h (mapPageFlags h virt flags) := by
  unfold mapPageFlags
  simp only
  split
  · exact .refl _ ho
  next h1 =>
  split
  · exact .refl _ ho
  next h2 =>
  obtain ⟨hflat, hat⟩ := tableAt_two ho hr (by simpa using h1) (by simpa using h2)
  rw [if_neg (by rw [hflat]; decide)]
  generalize frameOf (entry h.mem (frameOf (entry h.mem h.pagingRoot (pml4Index virt)))
    (pdptIndex virt)) = pd at *
  split
  · exact .refl _ ho
  next h3 =>
  have h3 : present (entry h.mem pd (pdtIndex virt)) = true := by simpa using h3
  have hh := fun hh => hn ⟨_, hat, h3, hh⟩
  rw [if_neg hh]
  split
  · exact .refl _ ho
  next h4 =>
  have hat3 : TableAt present h.mem h.pagingRoot (trail virt 3)
      (frameOf (entry h.mem pd (pdtIndex virt))) :=
    hat.next (index_lt 1 virt) (by simp) h3 (.inr (Bool.eq_false_iff.mpr hh))
  generalize frameOf (entry h.mem pd (pdtIndex virt)) = pt at *
  have hpt := shape_eq_some.mp (ho.tree.linked.tableAt access_present.present
    (shape_eq_some.mpr hr) hat3)
  obtain ⟨howned, hwalks, -, hat', he⟩ := setOnTrail (d := 3) ho hr (Grown.refl _ 0 ho) hat3 le_rfl
    (withFlags_lt (load64_lt _ _) flags) fun hn => absurd hn (by decide)
  refine ⟨howned, hwalks, fun ok ha va pa hw => ?_, fun t r p ht hp i hi => ?_, rfl⟩
  · by_cases hva : trail va 4 = trail virt 4
    rotate_left
    · have hsame := hwalks ok ha _ (shape_eq_some.mpr hr) va fun hn => hva hn.2
      exact walk_mono ha.present (hsame.symm.trans hw)
    obtain ⟨htr, hidx⟩ := trail_last hva
    have hnew := hat'.walk_of_some (l := 0) htr rfl hw
    rw [hat3.walk_eq (l := 0) htr rfl]
    have h4 : present (entry h.mem pt (ptIndex virt)) = true := by simpa using h4
    have h4 : present (entry h.mem pt (index (3 - 3) virt)) = true := h4
    simp only [walk] at hnew ⊢
    rw [hidx, he, leaf_withFlags] at hnew
    rw [hidx, if_pos h4]
    split at hnew
    · exact hnew
    · cases hnew
  · refine entry_store_ne (ho.page _ (by simp [hpt])).1
      (ho.page t (by simp [ht])).1 (index_lt 0 virt) hi ?_
    rintro ⟨rfl, -⟩
    obtain ⟨-, rfl⟩ := Use.table.inj (ht.symm.trans hpt)
    rw [trail_length] at hp
    omega

end

end Mukrn
