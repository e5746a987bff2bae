import Mukrn.Kernel.Active
import Mukrn.Memory.MapPage

/-! Accesses through the active page table. The kernel names tables and free pages by their physical
addresses; where the active root maps these pages to themselves, the accesses reach what they name,
and the functions under the active root are those of `Pmm` and `Paging`. -/
namespace Mukrn
open ByteMemory PageTable LinkedStack

/-- The active page table maps a page to itself. -/
def Direct (h : Machine) (page : ℕ) : Prop := ∀ o < 4096, translate h (page + o) = some (page + o)

/-- A page that the page-table functions use under a root: one of its tables, or a free page. -/
def TablePage (sh : Shape) (fl : List ℕ) (r t : ℕ) : Prop := (∃ p, sh t = some (r, p)) ∨ t ∈ fl

/-- The active root maps its tables and the free pages to themselves. -/
def InPlace (sh : Shape) (fl : List ℕ) (h : Machine) : Prop :=
  ∀ t, TablePage sh fl h.pagingRoot t → Direct h t

section Access

variable {sh sh' : Shape} {fl fl' p : List ℕ} {h h' : Machine} {f t i n : ℕ}
  {changed : ℕ → ℕ → Prop}

theorem Direct.entry (hd : Direct h t) (hi : i < 512) :
    Active.entry h t i = some (entry h.mem t i) := by
  rw [Active.entry, hd (8 * i) (by omega)]
  rfl

theorem Direct.setEntry (hd : Direct h t) (hi : i < 512) (v : ℕ) :
    Active.setEntry h t i v = some (setEntry h t i v) := by
  rw [Active.setEntry, hd (8 * i) (by omega)]
  rfl

theorem translate_agree (hw : WalksAgree sh changed h.mem h'.mem)
    (hr : sh h.pagingRoot = some (h.pagingRoot, [])) (hroot : h'.pagingRoot = h.pagingRoot) {va : ℕ}
    (hn : ¬ changed h.pagingRoot va) : translate h' va = translate h va := by
  rw [translate, translate, hroot, hw _ access_present _ hr va hn]

theorem Direct.agree (hd : Direct h t) (hw : WalksAgree sh changed h.mem h'.mem)
    (hr : sh h.pagingRoot = some (h.pagingRoot, [])) (hroot : h'.pagingRoot = h.pagingRoot)
    (hn : ∀ o < 4096, ¬ changed h.pagingRoot (t + o)) : Direct h' t := fun o ho => by
  rw [translate_agree hw hr hroot (hn o ho), hd o ho]

theorem TablesApart.aligned (hA : TablesApart sh fl h) {r : ℕ} (ht : TablePage sh fl r t) :
    t % 4096 = 0 := by
  rcases ht with ⟨p, ht⟩ | ht
  · exact hA.linked.aligned t r p ht
  · exact (hA.page t ht).1

theorem TablePage.of_new {r : ℕ} (hnew : ∀ t x, sh' t = some x → sh t = some x ∨ t ∈ fl)
    (hrest : fl' ⊆ fl) (ht : TablePage sh' fl' r t) : TablePage sh fl r t := by
  rcases ht with ⟨p, ht⟩ | ht
  · exact (hnew t _ ht).imp_left fun ht => ⟨p, ht⟩
  · exact .inr (hrest ht)

theorem InPlace.extended (hp : InPlace sh fl h) (hr : sh h.pagingRoot = some (h.pagingRoot, []))
    (hx : Extended n sh fl h sh' fl' h') : InPlace sh' fl' h' := by
  intro t ht
  rw [hx.root] at ht
  exact (hp t (ht.of_new hx.new hx.rest)).agree hx.walks hr hx.root fun _ _ => id

theorem touches_page {virt phys o : ℕ} (ht : t % 4096 = 0) (ho : o < 4096) :
    Touches virt phys (t + o) ↔ Touches virt phys t := by
  have hpage : (t + o) / 4096 = t / 4096 := by omega
  rw [Touches, Touches, trail_page hpage, trail_page hpage]

/-- A page is out of the way of another one when they lie in different 2 MiB regions. -/
theorem not_touches_region {virt phys : ℕ} (h : t / 2 ^ 21 % 2 ^ 27 ≠ virt / 2 ^ 21 % 2 ^ 27) :
    ¬ Touches virt phys t := by
  intro hn
  have hregion : trail t 3 = trail virt 3 := hn.elim (fun h4 => (trail_last h4).1) fun h3 => h3.2
  exact h (trail_three_iff.mp hregion)

/-- A page that is mapped elsewhere leaves the tables and the free pages where they are. -/
theorem InPlace.remaps {virt phys flags : ℕ} (hp : InPlace sh fl h) (hA : TablesApart sh fl h)
    (hr : sh h.pagingRoot = some (h.pagingRoot, []))
    (hx : Remaps virt phys flags sh fl h sh' fl' h')
    (hclear : ∀ t, TablePage sh fl h.pagingRoot t → ¬ Touches virt phys t) :
    InPlace sh' fl' h' := by
  intro t ht
  rw [hx.root] at ht
  have ht := ht.of_new hx.new hx.rest
  refine (hp t ht).agree hx.walks hr hx.root fun o ho hn => hclear t ht ?_
  exact (touches_page (hA.aligned ht) ho).mp hn.2

section Take

variable (hA : TablesApart sh (f :: fl) h)
include hA

theorem TablesApart.take_entry {x : ℕ × List ℕ} (ht : sh t = some x) (hi : i < 512) :
    entry (h.take f).mem t i = entry h.mem t i := by
  have hf0 := (hA.page f List.mem_cons_self).1
  have ht0 := hA.linked.aligned t x.1 x.2 ht
  have hne : t ≠ f := by
    rintro rfl
    rw [hA.free t List.mem_cons_self] at ht
    cases ht
  exact entry_of_page (fun a h1 h2 => h.take_outside (by omega)) hi

/-- A frame that is taken from the free list leaves the tables alone. -/
theorem TablesApart.take : TablesApart sh fl (h.take f) := by
  have hL := hA.linked
  obtain ⟨-, -, hc⟩ := hA.chain
  have hnot := (List.nodup_cons.mp hA.chain.nodup).1
  refine ⟨⟨hL.aligned, fun t r p ht hp i hi hpres => ?_, fun t r p ht hp i hi hpres hleaf => ?_⟩,
    ?_,
    fun g hg => hA.page g (List.mem_cons_of_mem f hg),
    fun g hg => hA.free g (List.mem_cons_of_mem f hg)⟩
  · rw [hA.take_entry ht hi] at hpres ⊢
    exact hL.flat t r p ht hp i hi hpres
  · rw [hA.take_entry ht hi] at hpres hleaf ⊢
    exact hL.child t r p ht hp i hi hpres hleaf
  · refine hc.congr fun g hg => load_congr fun j hj => h.take_outside ?_
    have hg0 := (hA.page g (List.mem_cons_of_mem f hg)).1
    have hf0 := (hA.page f List.mem_cons_self).1
    have hgf : g ≠ f := fun he => hnot (he ▸ hg)
    omega

theorem TablesApart.take_walks : WalksAgree sh changed h.mem (h.take f).mem :=
  fun _ ha _ hr _ _ => hA.linked.walk_congr ha.present
    (fun _ _ ht _ hi => hA.take_entry ht hi) hr rfl

theorem InPlace.take (hp : InPlace sh (f :: fl) h)
    (hr : sh h.pagingRoot = some (h.pagingRoot, [])) {t : ℕ}
    (ht : TablePage sh (f :: fl) h.pagingRoot t) : Direct (h.take f) t :=
  have hw : WalksAgree sh (fun _ _ => False) h.mem (h.take f).mem := hA.take_walks
  (hp t ht).agree hw hr rfl fun _ _ => id

end Take

end Access

section Owners

variable {use : ℕ → Use} {fl : List ℕ} {h : Machine} {t : ℕ} {p : List ℕ}

theorem Owned.pageTree (ho : Owned use fl h) (hr : use h.pagingRoot = .table h.pagingRoot []) :
    PageTree h.mem h.pagingRoot := by
  have hL := ho.tree.linked
  have hat {q : List ℕ} {t : ℕ} (ht : TableAt present h.mem h.pagingRoot q t) :=
    hL.tableAt access_present.present (shape_eq_some.mpr hr) ht
  refine ⟨(ho.page _ (by rw [hr]; simp)).1, fun p q t hp hq => ?_, fun i t ht k hk =>
    hL.flat _ _ _ (hat ht) rfl k hk⟩
  exact congrArg Prod.snd (Option.some.inj ((hat hp).symm.trans (hat hq)))

theorem Owned.table_used (ho : Owned use fl h) (hr : use h.pagingRoot = .table h.pagingRoot [])
    (ht : TableAt present h.mem h.pagingRoot p t) : use t ≠ .none := by
  rw [shape_eq_some.mp (ho.tree.linked.tableAt access_present.present (shape_eq_some.mpr hr) ht)]
  simp

theorem Owned.freePages (ho : Owned use fl h) (hr : use h.pagingRoot = .table h.pagingRoot []) :
    FreePages fl h := by
  have hA := ho.apart
  refine ⟨hA.chain, hA.page, fun f hf p hat => ?_⟩
  have htable := ho.tree.linked.tableAt access_present.present (shape_eq_some.mpr hr) hat
  rw [hA.free f hf] at htable
  cases htable

theorem Owned.tablePage_used (ho : Owned use fl h) {r : ℕ} (ht : TablePage (shape use) fl r t) :
    use t ≠ .none := by
  rcases ht with ⟨p, ht⟩ | ht
  · rw [shape_eq_some.mp ht]
    simp
  · rw [(ho.free t).mp ht]
    simp

theorem Owned.inPlace (ho : Owned use fl h) (hd : ∀ g, use g ≠ .none → Direct h g) :
    InPlace (shape use) fl h := fun t ht => hd t (ho.tablePage_used ht)

theorem Owned.treePage_used (ho : Owned use fl h)
    (hr : use h.pagingRoot = .table h.pagingRoot [])
    (ht : TablePage (treeShape h.mem h.pagingRoot) fl h.pagingRoot t) : use t ≠ .none := by
  rcases ht with ⟨p, ht⟩ | ht
  · exact ho.table_used hr (treeShape_tableAt ht).2
  · rw [(ho.free t).mp ht]
    simp

end Owners

section Agreement

variable {sh : Shape} {fl p : List ℕ} {h : Machine} {t i : ℕ} (hA : TablesApart sh fl h)
  (hp : InPlace sh fl h) (hr : sh h.pagingRoot = some (h.pagingRoot, []))
include hA hp

theorem pmmAllocPage_active : Active.pmmAllocPage h = some (pmmAllocPage h) := by
  cases fl with
  | nil =>
    have h0 : h.freeStack = 0 := hA.chain
    rw [Active.pmmAllocPage, pmmAllocPage, if_pos h0, if_pos h0]
  | cons f fl =>
    obtain ⟨hf, h0, -⟩ := hA.chain
    have hd := hp f (.inr List.mem_cons_self) 0 (by decide)
    rw [Active.pmmAllocPage, pmmAllocPage, hf, if_neg h0, if_neg h0, Nat.add_zero] at *
    rw [hd]
    rfl

include hr

theorem ensureTable_active {bits : ℕ} (ht : sh t = some (h.pagingRoot, p)) (hlen : p.length < 3)
    (hi : i < 512) (hb : bits = 3 ∨ bits = 7) :
    Active.ensureTable h t i bits = some (ensureTable h t i bits) := by
  have hd := hp t (.inl ⟨p, ht⟩)
  rw [Active.ensureTable, hd.entry hi, ensureTable, Option.bind_some]
  by_cases hpres : present (entry h.mem t i)
  · rw [if_pos hpres, if_pos hpres]
  rw [if_neg hpres, if_neg hpres, pmmAllocPage_active hA hp, Option.bind_some]
  cases fl with
  | nil =>
    rw [hA.alloc_nil]
    rfl
  | cons f fl =>
    obtain ⟨hf0, hf64⟩ := hA.page f List.mem_cons_self
    have hw : WalksAgree sh (fun _ _ => False) h.mem (setEntry (h.take f) t i (f ||| bits)).mem :=
      walks_linked hA.linked ht hi hf0 (hA.free f List.mem_cons_self) hlen hf64 hb
        (by simpa using hpres)
    have hset := (hp.take hA hr (.inl ⟨p, ht⟩)).setEntry hi (f ||| bits)
    have hget := (hd.agree hw hr rfl fun _ _ => id).entry hi
    simp only [hA.alloc_eq, if_neg hA.chain.2.1, hset, Option.bind_some, hget, Option.map_some]

theorem splitHuge_active (ht : sh t = some (h.pagingRoot, p)) (hlen : p.length = 2) (hi : i < 512)
    (hh : huge (entry h.mem t i)) : Active.splitHuge h t i = some (splitHuge h t i) := by
  have hd := hp t (.inl ⟨p, ht⟩)
  rw [Active.splitHuge, hd.entry hi, splitHuge, Option.bind_some, pmmAllocPage_active hA hp,
    Option.bind_some]
  cases fl with
  | nil =>
    rw [hA.alloc_nil]
    rfl
  | cons f fl =>
    obtain ⟨hf0, hf64⟩ := hA.page f List.mem_cons_self
    have hf := hA.free f List.mem_cons_self
    have hpage := hp.take hA hr (.inr List.mem_cons_self) 0 (by decide)
    rw [Nat.add_zero] at hpage
    -- neither filling the page nor linking it changes where the other table leads
    have hfill : WalksAgree sh (fun _ _ => False) h.mem (h.takeParts f (entry h.mem t i)).mem := by
      refine fun _ ha _ hr _ _ => hA.linked.walk_congr ha.present (fun t' p' ht' k hk => ?_) hr rfl
      have ht0 := hA.linked.aligned t' _ _ ht'
      have hne : t' ≠ f := by
        rintro rfl
        rw [hf] at ht'
        cases ht'
      exact entry_of_page (fun a h1 h2 => h.takeParts_outside _ (by omega)) hk
    have hd' : Direct (h.takeParts f (entry h.mem t i)) t := hd.agree hfill hr rfl fun _ _ => id
    have hset := hd'.setEntry hi (f ||| 7)
    have hw : WalksAgree sh (fun _ _ => False) h.mem
        (setEntry (h.takeParts f (entry h.mem t i)) t i (f ||| 7)).mem :=
      walks_parts hA.linked ht hi hf0 hf hlen hf64 hh
    have hget := (hd.agree hw hr rfl fun _ _ => id).entry hi
    simp only [hA.alloc_eq, if_neg hA.chain.2.1, hpage, Option.bind_some]
    exact (congrArg (Option.bind · _) hset).trans (congrArg (Option.map _) hget)

theorem ensurePt_active (ht : sh t = some (h.pagingRoot, p)) (hlen : p.length = 2) (hi : i < 512) :
    Active.ensurePt h t i = some (ensurePt h t i) := by
  rw [Active.ensurePt, (hp t (.inl ⟨p, ht⟩)).entry hi, Option.bind_some, ensurePt]
  split
  next hc =>
    exact splitHuge_active hA hp hr ht hlen hi (Bool.and_eq_true_iff.mp hc).2
  next => exact ensureTable_active hA hp hr ht (by omega) hi (.inr rfl)

/-- `map_page` writes where it means to. -/
theorem mapPage_active (virt phys flags : ℕ) :
    Active.mapPage h virt phys flags = some (mapPage h virt phys flags) := by
  have hfirst : Active.ensureTable h h.pagingRoot (pml4Index virt) 3 = some _ :=
    ensureTable_active hA hp hr hr (by decide) (index_lt 3 virt) (.inl rfl)
  rw [Active.mapPage, mapPage, hfirst, Option.bind_some]
  rcases ensureTable_apart hA hr .root (by decide) (index_lt 3 virt) rfl
    (fun _ => .inl rfl) with ⟨-, -, he1⟩ | ⟨h1, e1, sh1, fl1, he1, hx1, hat1, -⟩
  · have he1 : ensureTable h h.pagingRoot (pml4Index virt) 3 = none := he1
    simp only [he1]
  have he1 : ensureTable h h.pagingRoot (pml4Index virt) 3 = some (h1, e1) := he1
  have hr1 := hx1.keeps _ _ hr
  have hst1 := hx1.apart.linked.tableAt access_present.present hr1 hat1
  have hp1 := hp.extended hr hx1
  rw [← hx1.root] at hr1 hst1 hat1
  have hsecond : Active.ensureTable h1 (frameOf e1) (pdptIndex virt) 3 = some _ :=
    ensureTable_active hx1.apart hp1 hr1 hst1 (by simp) (index_lt 2 virt) (.inl rfl)
  simp only [he1]
  rw [hsecond, Option.bind_some]
  rcases ensureTable_apart hx1.apart hr1 hat1 (by simp) (index_lt 2 virt) rfl
    (fun hpres => .inr (hx1.apart.linked.flat _ _ _ hst1 rfl _ (index_lt 2 virt) hpres)) with
      ⟨-, -, he2⟩ | ⟨h2, e2, sh2, fl2, he2, hx2, hat2, -⟩
  · have he2 : ensureTable h1 (frameOf e1) (pdptIndex virt) 3 = none := he2
    simp only [he2]
  have he2 : ensureTable h1 (frameOf e1) (pdptIndex virt) 3 = some (h2, e2) := he2
  have hr2 := hx2.keeps _ _ hr1
  have hst2 := hx2.apart.linked.tableAt access_present.present hr2 hat2
  have hp2 := hp1.extended hr1 hx2
  rw [← hx2.root] at hr2 hst2 hat2
  have hthird : Active.ensurePt h2 (frameOf e2) (pdtIndex virt) = some _ :=
    ensurePt_active hx2.apart hp2 hr2 hst2 rfl (index_lt 1 virt)
  simp only [he2]
  split
  · exact (hp2 _ (.inl ⟨_, hst2⟩)).setEntry (index_lt 1 virt) _
  rw [hthird, Option.bind_some]
  rcases ensurePt_apart hx2.apart hr2 hat2 rfl (index_lt 1 virt) with
      ⟨-, -, he3⟩ | ⟨h3, e3, sh3, fl3, he3, hx3, hat3, -⟩
  · have he3 : ensurePt h2 (frameOf e2) (pdtIndex virt) = none := he3
    simp only [he3]
  have he3 : ensurePt h2 (frameOf e2) (pdtIndex virt) = some (h3, e3) := he3
  have hst3 := hx3.apart.linked.tableAt access_present.present (hx3.keeps _ _ hr2) hat3
  rw [← hx3.root] at hst3
  simp only [he3]
  exact (hp2.extended hr2 hx3 _ (.inl ⟨_, hst3⟩)).setEntry (index_lt 0 virt) _

end Agreement

section Loops

variable {sh sh' sh'' : Shape} {fl fl' fl'' vs : List ℕ} {h h' h'' : Machine} {v phys flags : ℕ}

/-- The tables and free pages are in place, and they are among those there were. -/
structure StillInPlace (sh : Shape) (fl : List ℕ) (h : Machine) (sh' : Shape) (fl' : List ℕ)
    (h' : Machine) : Prop where
  apart : TablesApart sh' fl' h'
  place : InPlace sh' fl' h'
  root : h'.pagingRoot = h.pagingRoot
  table : sh' h'.pagingRoot = some (h'.pagingRoot, [])
  pages : ∀ r t, TablePage sh' fl' r t → TablePage sh fl r t
  rest : fl' ⊆ fl

theorem StillInPlace.trans (hs : StillInPlace sh fl h sh' fl' h')
    (hs' : StillInPlace sh' fl' h' sh'' fl'' h'') : StillInPlace sh fl h sh'' fl'' h'' :=
  ⟨hs'.apart, hs'.place, hs'.root.trans hs.root, hs'.table,
    fun r t ht => hs.pages r t (hs'.pages r t ht), fun _ hf => hs.rest (hs'.rest hf)⟩

/-- The tables and the free pages are in place, and mapping one of the pages `V` to a free frame
does not change this for any of them. -/
structure FreshInPlace (sh : Shape) (fl : List ℕ) (h : Machine) (V : ℕ → Prop) : Prop where
  now : InPlace sh fl h
  later : ∀ v, V v → ∀ f ∈ fl, ∀ t, TablePage sh fl h.pagingRoot t → ¬ Touches v f t

theorem FreshInPlace.still {V : ℕ → Prop} (hp : FreshInPlace sh fl h V)
    (hs : StillInPlace sh fl h sh' fl' h') : FreshInPlace sh' fl' h' V :=
  ⟨hs.place, fun w hw f hf t ht =>
    hp.later w hw f (hs.rest hf) t (by rw [← hs.root]; exact hs.pages _ t ht)⟩

theorem mapPage_inPlace (hA : TablesApart sh fl h) (hp : InPlace sh fl h)
    (hr : sh h.pagingRoot = some (h.pagingRoot, [])) (hphys : phys % 4096 = 0 ∧ phys < 2 ^ 64)
    (hf : flags < 128) (hclear : ∀ t, TablePage sh fl h.pagingRoot t → ¬ Touches v phys t) :
    ∃ sh' fl', StillInPlace sh fl h sh' fl' (mapPage h v phys flags) := by
  rcases mapPage_apart v hA hr hphys.1 hphys.2 hf with ⟨-, n, sh', hx⟩ | ⟨-, sh', fl', hx⟩
  · exact ⟨sh', [], hx.apart, hp.extended hr hx, hx.root, by rw [hx.root]; exact hx.keeps _ _ hr,
      fun r t ht => ht.of_new hx.new hx.rest, hx.rest⟩
  · exact ⟨sh', fl', hx.apart, hp.remaps hA hr hx hclear,
      hx.root, by rw [hx.root]; exact hx.keeps _ _ hr,
      fun r t ht => ht.of_new hx.new hx.rest, hx.rest⟩

/-- The loop of `mmap`, `brk` and the loaders. -/
theorem mapFresh_active {V : ℕ → Prop} (hA : TablesApart sh fl h)
    (hr : sh h.pagingRoot = some (h.pagingRoot, [])) (hp : FreshInPlace sh fl h V)
    (hvs : ∀ v ∈ vs, V v) (hf : flags < 128) :
    Active.mapFresh flags h vs = some (mapFresh flags h vs) ∧
      ∃ sh' fl', StillInPlace sh fl h sh' fl' (mapFresh flags h vs).2 := by
  induction vs generalizing sh fl h with
  | nil =>
    exact ⟨rfl, sh, fl, hA, hp.now, rfl, hr, fun _ _ => id, List.Subset.refl fl⟩
  | cons v vs ih =>
    rw [Active.mapFresh, mapFresh, pmmAllocPage_active hA hp.now, Option.bind_some]
    cases fl with
    | nil =>
      rw [hA.alloc_nil]
      exact ⟨rfl, sh, [], hA, hp.now, rfl, hr, fun _ _ => id, List.Subset.refl []⟩
    | cons f fl =>
      simp only [hA.alloc_eq, if_neg hA.chain.2.1]
      have hsub (r t : ℕ) (ht : TablePage sh fl r t) : TablePage sh (f :: fl) r t :=
        ht.imp_right (List.mem_cons_of_mem f)
      have hp' : InPlace sh fl (h.take f) := fun t ht => hp.now.take hA hr (hsub _ t ht)
      rw [mapPage_active hA.take hp' hr, Option.bind_some]
      have htake : StillInPlace sh (f :: fl) h sh fl (h.take f) :=
        ⟨hA.take, hp', rfl, hr, hsub, List.subset_cons_self f fl⟩
      obtain ⟨sh', fl', hs⟩ := mapPage_inPlace hA.take hp' hr
        (hA.page f List.mem_cons_self) hf fun t ht =>
          hp.later v (hvs v List.mem_cons_self) f List.mem_cons_self t (hsub _ t ht)
      have hs := htake.trans hs
      obtain ⟨heq, sh'', fl'', hs'⟩ := ih hs.apart hs.table (hp.still hs)
        fun w hw => hvs w (List.mem_cons_of_mem v hw)
      exact ⟨heq, sh'', fl'', hs.trans hs'⟩

/-- The loop of `mmap_phys`. -/
theorem foldlM_mapPage_active {phys : ℕ → ℕ} (hA : TablesApart sh fl h) (hp : InPlace sh fl h)
    (hr : sh h.pagingRoot = some (h.pagingRoot, [])) (hf : flags < 128)
    (hphys : ∀ v ∈ vs, phys v % 4096 = 0 ∧ phys v < 2 ^ 64)
    (hclear : ∀ v ∈ vs, ∀ t, TablePage sh fl h.pagingRoot t → ¬ Touches v (phys v) t) :
    vs.foldlM (fun h v => Active.mapPage h v (phys v) flags) h =
      some (vs.foldl (fun h v => mapPage h v (phys v) flags) h) := by
  induction vs generalizing sh fl h with
  | nil => rfl
  | cons v vs ih =>
    obtain ⟨sh', fl', hs⟩ := mapPage_inPlace hA hp hr (hphys v List.mem_cons_self) hf
      (hclear v List.mem_cons_self)
    rw [List.foldlM_cons, mapPage_active hA hp hr, List.foldl_cons]
    refine ih hs.apart hs.place hs.table (fun w hw => hphys w (List.mem_cons_of_mem v hw))
      fun w hw t ht => hclear w (List.mem_cons_of_mem v hw) t ?_
    rw [← hs.root]
    exact hs.pages _ t ht

end Loops

end Mukrn
