import Mukrn.Memory.Leaves
import Mukrn.Memory.Spaces

/-! The part of an address space that is open to user mode. The copied template opens the first
gigabyte, and the tables that `map_page` adds above the third level are closed to user mode. -/
namespace Mukrn
open ByteMemory PageTable

/-- All three rights. -/
def allOpen (e : ℕ) : Bool := e % 8 == 7

theorem allOpen_grants {ok : ℕ → Bool} (hok : Access ok) (e : ℕ) (he : allOpen e) : ok e := by
  rw [hok.bits, beq_iff_eq.mp he]
  exact hok.full

/-- The way to the third-level table of the first gigabyte is open, and to no other one; so are the
links from it. -/
structure LowOpen (m : Mem) (r : ℕ) : Prop where
  low : ∃ t, TableAt allOpen m r [0, 0] t
  only : ∀ p t, p.length = 2 → TableAt userOpen m r p t → p = [0, 0]
  links : ∀ t, TableAt present m r [0, 0] t → ∀ i < 512, present (entry m t i) →
    huge (entry m t i) = false → allOpen (entry m t i)

theorem trail_two_zero {va : ℕ} : trail va 2 = [0, 0] ↔ va / 2 ^ 30 % 2 ^ 18 = 0 := by
  simp only [trail, List.range_succ, List.range_zero, List.nil_append, List.map_cons, List.map_nil,
    List.cons_append, List.cons.injEq, index, and_true]
  omega

section Low

variable {large : Prop} {sh : Shape} {m m' : Mem} {r va : ℕ} {ok : ℕ → Bool}

theorem LowOpen.wayOpen (hlow : LowOpen m r) (hok : Access ok) (hva : va / 2 ^ 30 % 2 ^ 18 = 0) :
    WayOpen ok m r va := by
  obtain ⟨t, hat⟩ := hlow.low
  have hok' := allOpen_grants hok
  have hpres := allOpen_grants access_present
  refine ⟨t, ?_, fun hp hh => hok' _ (hlow.links t (hat.mono hpres) _ (index_lt 1 va) hp hh)⟩
  rw [trail_two_zero.mpr hva]
  exact hat.mono hok'

/-- Tables that are added, and leaves that are set or cleared, do not change it. -/
theorem LowOpen.of_links (hlow : LowOpen m r) (hk : LinksKept large sh m m') (hL : Linked sh m)
    (hr : sh r = some (r, [])) : LowOpen m' r := by
  have hpres := allOpen_grants access_present
  obtain ⟨t, hat⟩ := hlow.low
  have hat' := hk.tableAt hL hpres hr hat le_rfl
  refine ⟨⟨t, hat'⟩, fun p t hp hu => ?_, fun t1 hat1 i hi hp hh => ?_⟩
  · exact hlow.only p t hp (hk.tableAt_of hL hr access_userOpen.present hu hu hp.le).1
  · obtain rfl : t1 = t := hat1.unique (hat'.mono hpres)
    cases hk t1 r [0, 0] (hL.tableAt hpres hr hat) (by decide) i hi with
    | kept heq =>
      rw [heq] at hp hh ⊢
      exact hlow.links t1 (hat.mono hpres) i hi hp hh
    | added hd _ _ => exact absurd hd (by decide)
    | table _ hlink _ _ => exact beq_iff_eq.mpr hlink
    | leaf _ _ hleaf =>
      rw [hleaf] at hh
      cases hh

/-- What user mode can access lies in the first gigabyte. -/
theorem LowOpen.user_low (hlow : LowOpen m r) (hL : Linked sh m) (hr : sh r = some (r, []))
    {pa : ℕ} (hw : walk userOpen m va 3 r = some pa) : va / 2 ^ 30 % 2 ^ 18 = 0 := by
  obtain ⟨t, hat, -⟩ := hL.exists_third hr (walk_mono access_userOpen.present hw)
  have hopen := hat.grant (by rw [trail_length]) hw
  exact trail_two_zero.mp (hlow.only _ t (trail_length va 2) hopen)

/-- A copy of the template. -/
theorem Copied.lowOpen {f1 f2 f3 : ℕ} (hc : Copied m f1 f2 f3) : LowOpen m f1 := by
  obtain ⟨hb2, hh2, hf2⟩ := full_link hc.aligned.1
  obtain ⟨hb3, hh3, hf3⟩ := full_link hc.aligned.2
  have h1 : entry m f1 0 = f2 ||| 7 := hc.pml4 0 (by decide)
  have h2 : entry m f2 0 = f3 ||| 7 := hc.pdpt 0 (by decide)
  have hat1 : TableAt allOpen m f1 [0] f2 := by
    have hat : TableAt allOpen m f1 [0] (frameOf (entry m f1 0)) :=
      TableAt.root.next (by decide) (by decide) (by rw [h1]; exact beq_iff_eq.mpr hb2) (.inl rfl)
    rwa [h1, hf2] at hat
  have hat2 : TableAt allOpen m f1 [0, 0] f3 := by
    have hat := hat1.next (i := 0) (by decide) (by decide) (by rw [h2]; exact beq_iff_eq.mpr hb3)
      (.inr (by rw [h2]; exact hh3))
    rwa [h2, hf3] at hat
  have hpres := allOpen_grants access_present
  refine ⟨⟨f3, hat2⟩, fun p t hp hu => ?_, fun t hat i hi _ hh => ?_⟩
  · obtain ⟨i, j, rfl⟩ := List.length_eq_two.mp hp
    obtain ⟨t1, hu1, hj, -, he2, -, -⟩ := TableAt.link (p := [i]) hu
    obtain ⟨t0, hu0, hi, -, he1, -, rfl⟩ := TableAt.link (p := []) hu1
    obtain rfl : t0 = f1 := hu0.unique .root
    rw [hc.pml4 i hi] at he1 he2
    obtain rfl : i = 0 := by
      by_contra hne
      rw [if_neg hne] at he1
      cases he1
    rw [if_pos rfl, hf2, hc.pdpt j hj] at he2
    obtain rfl : j = 0 := by
      by_contra hne
      rw [if_neg hne] at he2
      cases he2
    rfl
  · obtain rfl : t = f3 := hat.unique (hat2.mono hpres)
    rw [hc.pdt i hi] at hh
    simp only [huge, beq_eq_false_iff_ne] at hh
    omega

end Low

section Loader

variable {use : ℕ → Use} {fl : List ℕ} {h : Machine} {r : ℕ}

/-- Pages that hold no table do not matter for it. -/
theorem LowOpen.of_sameOutside {pages : List ℕ} {m' : Mem} (hlow : LowOpen h.mem r)
    (ho : Owned use fl h) (hr : use r = .table r []) (hout : SameOutside pages h.mem m')
    (hp : ∀ f ∈ pages, ∀ r p, use f ≠ .table r p) : LowOpen m' r := by
  have hk : LinksKept False (shape use) h.mem m' := by
    refine .of_eq fun t x ht i hi => ?_
    have ht : use t = .table x.1 x.2 := shape_eq_some.mp ht
    have hpage := ho.page t (by rw [ht]; simp)
    exact entry_of_page (fun a h1 h2 => hout.page hpage.1 (fun hn => hp t hn _ _ ht) h1 h2) hi
  exact hlow.of_links hk ho.tree.linked (shape_eq_some.mpr hr)

/-- A page taken for user data changes no table. -/
theorem Owned.take_data {f : ℕ} (ho : Owned use (f :: fl) h)
    (hr : use h.pagingRoot = .table h.pagingRoot []) :
    Owned (Function.update use f .data) fl (h.take f) ∧
      shape (Function.update use f .data) h.pagingRoot = some (h.pagingRoot, []) ∧
      (LowOpen h.mem h.pagingRoot → LowOpen (h.take f).mem h.pagingRoot) := by
  obtain ⟨hfree, hf0, -⟩ := ho.head
  have hne : h.pagingRoot ≠ f := ho.ne_head (by rw [hr]; simp)
  have htake : SameOutside [f] h.mem (h.take f).mem := .one hf0 fun a ha => h.take_outside ha
  refine ⟨ho.alloc (by simp) (by simp) (by simp),
    shape_eq_some.mpr ((Function.update_of_ne hne ..).trans hr),
    fun hlow => hlow.of_sameOutside ho hr htake fun g hg r p => ?_⟩
  rw [List.mem_singleton.mp hg, hfree]
  simp

/-- Backing pages with fresh frames keeps it, also where the free pages run out. -/
theorem mapFresh_lowOpen {flags : ℕ} (ho : Owned use fl h)
    (hr : use h.pagingRoot = .table h.pagingRoot []) (hf : flags < 128) (hpf : present flags)
    (vs : List ℕ) (hlow : LowOpen h.mem h.pagingRoot) :
    LowOpen (mapFresh flags h vs).2.mem h.pagingRoot := by
  induction vs generalizing use fl h with
  | nil => exact hlow
  | cons v vs ih =>
    cases fl with
    | nil =>
      simp only [mapFresh, ho.alloc_nil, if_true]
      exact hlow
    | cons f fl =>
      obtain ⟨-, hf0, -, hf64⟩ := ho.head
      obtain ⟨ho1, hr1, htake⟩ := ho.take_data hr
      have hk := mapPage_links v ho1.apart hr1 hf0 hf64 hf
      obtain ⟨use1, fl1, hb, -⟩ := mapOne_spec (v := v) ho hr hf hpf
      have hroot := hb.root
      rw [(freshMaps_cons ho flags v vs).1]
      generalize mapPage (h.take f) v f flags = h1 at hk hb hroot ⊢
      rw [← hroot]
      apply ih hb.owned (hb.keeps_root ho hr)
      rw [hroot]
      exact (htake hlow).of_links hk ho1.tree.linked hr1

/-- In the first gigabyte the leaf of a page that is backed grants what its own bits grant. -/
theorem mapOne_grants {f v va pa flags : ℕ} {ok : ℕ → Bool} (ho : Owned use (f :: fl) h)
    (hr : use h.pagingRoot = .table h.pagingRoot []) (hlow : LowOpen h.mem h.pagingRoot)
    (hf : flags < 128) (hok : Access ok) (hflags : ok flags) (hva : va / 2 ^ 30 % 2 ^ 18 = 0)
    (hleads : Leads (mapPage (h.take f) v f flags).mem h.pagingRoot va pa flags) :
    walk ok (mapPage (h.take f) v f flags).mem va 3 h.pagingRoot = some pa := by
  obtain ⟨-, hf0, -, hf64⟩ := ho.head
  obtain ⟨ho1, hr1, htake⟩ := ho.take_data hr
  exact (mapPage_links v ho1.apart hr1 hf0 hf64 hf).grants ho1.tree.linked hr1 hok
    ((htake hlow).wayOpen hok hva) hleads hflags

end Loader

end Mukrn
