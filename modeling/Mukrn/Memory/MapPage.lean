import Mukrn.Memory.Owned

/-! `map_page` as an exact update of the translation. Nothing is assumed of the page tables but
that their pages are distinct and not on the free list, and that there are no 1 GiB pages. -/
namespace Mukrn
open ByteMemory PageTable LinkedStack

/-- The words of the table that replaces a 2 MiB leaf. -/
private theorem splitWord_eq (e : ℕ) {k : ℕ} (he : e < 2 ^ 64) (hk : k < 512) :
    ((e / 2 ^ 21 * 2 ^ 21 + k * 0x1000) ||| e % 512) % 2 ^ 64 =
      e / 2 ^ 21 * 2 ^ 21 + k * 4096 + e % 512 := by
  have hpage : (e / 2 ^ 21 * 2 ^ 21 + k * 0x1000) % 4096 = 0 := by omega
  have hlow : e % 512 < 4096 := by omega
  have hlt : e / 2 ^ 21 * 2 ^ 21 + k * 4096 + e % 512 < 2 ^ 64 := by omega
  rw [or_eq_add hpage hlow, Nat.mod_eq_of_lt hlt]

/-- The machine after the page `f` has been popped and filled with the 4 KiB parts of a leaf. -/
def Machine.takeParts (h : Machine) (f e : ℕ) : Machine :=
  { h.take f with
    mem := storeWords (h.take f).mem f 512 fun k =>
      (e / 2 ^ 21 * 2 ^ 21 + k * 0x1000) ||| e % 512 }

theorem Machine.takeParts_mem (h : Machine) (f e : ℕ) :
    (h.takeParts f e).mem = storeWords (h.take f).mem f 512 fun k =>
      (e / 2 ^ 21 * 2 ^ 21 + k * 0x1000) ||| e % 512 := rfl

theorem Machine.takeParts_outside (h : Machine) (e : ℕ) {f a : ℕ} (ha : a < f ∨ f + 4096 ≤ a) :
    (h.takeParts f e).mem a = h.mem a := by
  rw [h.takeParts_mem, storeWords_outside (n := 512) ha, h.take_outside ha]

theorem Machine.takeParts_entry (h : Machine) (f : ℕ) {e k : ℕ} (he : e < 2 ^ 64) (hk : k < 512) :
    entry (h.takeParts f e).mem f k = e / 2 ^ 21 * 2 ^ 21 + k * 4096 + e % 512 := by
  rw [h.takeParts_mem, entry, load64_storeWords hk]
  exact splitWord_eq e he hk

/-- The bits of the link to a table. -/
theorem link_bits {f bits : ℕ} (hf : f % 4096 = 0) (hb : bits = 3 ∨ bits = 7) :
    present (f ||| bits) = true ∧ huge (f ||| bits) = false := by
  have hbits : bits < 4096 := by omega
  rw [present_or hf hbits, huge_or hf hbits]
  rcases hb with rfl | rfl <;> exact ⟨rfl, rfl⟩

section Taken

variable {sh : Shape} {p : List ℕ} {r t i f v : ℕ} {h h1 : Machine} (hL : Linked sh h.mem)
  (ht : sh t = some (r, p)) (hi : i < 512) (hf0 : f % 4096 = 0) (hf : sh f = none)
include hL ht hi hf0 hf

/-- A page that was no table, filled and linked into a table, leaves all other entries alone. -/
theorem entry_linked (hm : ∀ a, a < f ∨ f + 4096 ≤ a → h1.mem a = h.mem a) (t' : ℕ) {r' : ℕ}
    {p' : List ℕ} (ht' : sh t' = some (r', p')) {i' : ℕ} (hi' : i' < 512)
    (hne : ¬ (t' = t ∧ i' = i)) :
    entry (setEntry h1 t i v).mem t' i' = entry h.mem t' i' := by
  have hal := hL.aligned t' r' p' ht'
  have htf : t' ≠ f := by
    rintro rfl
    rw [hf] at ht'
    cases ht'
  have hstore : entry (setEntry h1 t i v).mem t' i' = entry h1.mem t' i' :=
    entry_store_ne (hL.aligned t r p ht) hal hi hi' hne
  rw [hstore]
  exact entry_of_page (fun a h1 h2 => hm a (by omega)) hi'

/-- The table below the new entry is the page taken. -/
theorem tableAt_linked (hm : ∀ a, a < f ∨ f + 4096 ≤ a → h1.mem a = h.mem a)
    (hr : sh r = some (r, [])) (hat : TableAt present h.mem r p t) (hp : p.length < 3)
    (hv : v < 2 ^ 64) (hpv : present v) (hhv : huge v = false) :
    TableAt present (setEntry h1 t i v).mem r (p ++ [i]) (frameOf v) := by
  have hat' : TableAt present (setEntry h1 t i v).mem r p t := by
    refine hat.congr hL access_present.present hr fun t' q ht' hq i' hi' => ?_
    refine entry_linked hL ht hi hf0 hf hm t' ht' hi' ?_
    rintro ⟨rfl, -⟩
    obtain ⟨-, rfl⟩ := Prod.mk.inj (Option.some.inj (ht.symm.trans ht'))
    exact lt_irrefl _ hq
  have he : entry (setEntry h1 t i v).mem t i = v := entry_store_self hv
  have hpe : present (entry (setEntry h1 t i v).mem t i) := by rw [he]; exact hpv
  have hhe : huge (entry (setEntry h1 t i v).mem t i) = false := by rw [he]; exact hhv
  have hnext := hat'.next hi hp hpe (.inr hhe)
  rw [he] at hnext
  exact hnext

private theorem entry_taken (v : ℕ) {k : ℕ} (hk : k < 512) :
    entry (setEntry h1 t i v).mem f k = entry h1.mem f k := by
  refine entry_store_ne (hL.aligned t r p ht) hf0 hi hk ?_
  rintro ⟨rfl, -⟩
  rw [hf] at ht
  cases ht

/-- A cleared page that is linked still has no entries. -/
theorem entry_linked_zero (v : ℕ) {k : ℕ} (hk : k < 512) :
    entry (setEntry (h.take f) t i v).mem f k = 0 := by
  rw [entry_taken hL ht hi hf0 hf v hk, h.take_entry f hk]

/-- Linking a cleared page where there was no table changes no translation. -/
theorem walks_linked {bits : ℕ} {changed : ℕ → ℕ → Prop} (hp : p.length < 3) (hf64 : f < 2 ^ 64)
    (hb : bits = 3 ∨ bits = 7) (habs : present (entry h.mem t i) = false) :
    WalksAgree sh changed h.mem (setEntry (h.take f) t i (f ||| bits)).mem := by
  have hbits : bits < 4096 := by omega
  have he : entry (setEntry (h.take f) t i (f ||| bits)).mem t i = f ||| bits :=
    entry_store_self (or_lt hf0 hbits hf64)
  refine hL.walks_link ht hp (fun t' r' p' ht' i' hi' hne => entry_linked hL ht hi hf0 hf
    (fun a ha => h.take_outside ha) t' ht' hi' hne) habs ?_ fun k hk => ?_
  · rw [he, (link_bits hf0 hb).2]
  · rw [he, frameOf_or hf0 hbits, entry_linked_zero hL ht hi hf0 hf _ hk]

/-- Linking the table of a 2 MiB leaf's parts in its place changes no translation. -/
theorem walks_parts {changed : ℕ → ℕ → Prop} (hp : p.length = 2) (hf64 : f < 2 ^ 64)
    (hh : huge (entry h.mem t i)) : WalksAgree sh changed h.mem
      (setEntry (h.takeParts f (entry h.mem t i)) t i (f ||| 7)).mem := by
  have he : entry (setEntry (h.takeParts f (entry h.mem t i)) t i (f ||| 7)).mem t i = f ||| 7 :=
    entry_store_self (or_lt hf0 (by decide) hf64)
  refine hL.walks_split ht hp (fun t' r' p' ht' i' hi' hne => entry_linked hL ht hi hf0 hf
    (fun a ha => h.takeParts_outside _ ha) t' ht' hi' hne) hh ?_ ?_ fun k hk => ?_
  · rw [he, or_eq_add hf0 (by decide)]
    omega
  · rw [he, (link_bits hf0 (.inr rfl)).2]
  · rw [he, frameOf_or hf0 (by decide), entry_taken hL ht hi hf0 hf _ hk,
      h.takeParts_entry f (load64_lt _ _) hk]

end Taken

/-- Table pages and a free list of pages that are no tables. -/
structure TablesApart (sh : Shape) (fl : List ℕ) (h : Machine) : Prop where
  linked : Linked sh h.mem
  chain : Chain (load64 h.mem) 0 h.freeStack fl
  page : ∀ f ∈ fl, f % 4096 = 0 ∧ f < 2 ^ 64
  free : ∀ f ∈ fl, sh f = none

/-- Tables were added, for `n` pages of the free list, without changing a translation. -/
structure Extended (n : ℕ) (sh : Shape) (fl : List ℕ) (h : Machine) (sh' : Shape) (fl' : List ℕ)
    (h' : Machine) : Prop where
  apart : TablesApart sh' fl' h'
  used : fl.length = fl'.length + n
  keeps : ∀ t x, sh t = some x → sh' t = some x
  new : ∀ t x, sh' t = some x → sh t = some x ∨ t ∈ fl
  rest : fl' ⊆ fl
  walks : WalksAgree sh (fun _ _ => False) h.mem h'.mem
  root : h'.pagingRoot = h.pagingRoot

/-- A table was added below an entry that was vacant or a 2 MiB leaf, whose parts it then holds. -/
structure Graft (d : ℕ) (m m' : Mem) (t i : ℕ) : Prop where
  upper : d < 3
  low : entry m' t i % 4096 = if d = 2 then 7 else 3
  parts : present (entry m t i) → d = 2 ∧ huge (entry m t i) ∧
    ∀ k < 512, entry m' (frameOf (entry m' t i)) k =
      entry m t i / 2 ^ 21 * 2 ^ 21 + k * 4096 + entry m t i % 512

/-- The entries of the tables are as before, except that tables were added below some that lie on
the `way`. -/
def Grafted (way : ℕ → List ℕ → Prop) (sh : Shape) (m m' : Mem) : Prop :=
  ∀ t r p, sh t = some (r, p) → ∀ i < 512,
    entry m' t i = entry m t i ∨ way r (p ++ [i]) ∧ Graft p.length m m' t i

section

variable {sh sh' sh'' : Shape} {fl fl' fl'' p : List ℕ} {h h' h'' : Machine} {r t i f n n' : ℕ}
  {way way' : ℕ → List ℕ → Prop} {m m' m'' : Mem}

theorem Graft.link {d : ℕ} (hg : Graft d m m' t i) :
    present (entry m' t i) = true ∧ huge (entry m' t i) = false := by
  have hlow := hg.low
  simp only [present, huge, beq_iff_eq, beq_eq_false_iff_ne]
  split at hlow <;> omega

theorem Grafted.refl : Grafted way sh m m :=
  fun _ _ _ _ _ _ => .inl rfl

theorem Grafted.mono (hg : Grafted way sh m m') (hw : ∀ r q, way r q → way' r q) :
    Grafted way' sh m m' :=
  fun t r p ht i hi => (hg t r p ht i hi).imp_right fun hx => ⟨hw _ _ hx.1, hx.2⟩

theorem Grafted.trans (hg : Grafted way sh m m') (hL : Linked sh' m')
    (hk : ∀ t x, sh t = some x → sh' t = some x) (hg' : Grafted way sh' m' m'') :
    Grafted way sh m m'' := by
  intro t r p ht i hi
  have ht' := hk t _ ht
  rcases hg t r p ht i hi with heq | ⟨hway, hx⟩
  · rcases hg' t r p ht' i hi with heq' | ⟨hway, hx⟩
    · exact .inl (heq'.trans heq)
    · exact .inr ⟨hway, hx.upper, hx.low, by rw [← heq]; exact hx.parts⟩
  · obtain ⟨hp, hh⟩ := hx.link
    have heq' : entry m'' t i = entry m' t i := by
      refine (hg' t r p ht' i hi).resolve_right fun hx' => ?_
      rw [(hx'.2.parts hp).2.1] at hh
      cases hh
    refine .inr ⟨hway, hx.upper, by rw [heq']; exact hx.low, fun hpres => ?_⟩
    obtain ⟨h2, hhuge, hparts⟩ := hx.parts hpres
    refine ⟨h2, hhuge, fun k hk => ?_⟩
    -- the added table is of the last level, where nothing is added
    have hchild := hL.child t r p ht' hx.upper i hi hp (by rw [hh]; simp)
    have hlast : entry m'' (frameOf (entry m' t i)) k = entry m' (frameOf (entry m' t i)) k := by
      refine (hg' _ r _ hchild k hk).resolve_right fun hx' => ?_
      have hlen := hx'.2.upper
      rw [List.length_append, List.length_singleton] at hlen
      omega
    rw [heq', hlast]
    exact hparts k hk

theorem Owned.apart {use : ℕ → Use} (ho : Owned use fl h) : TablesApart (shape use) fl h := by
  have hfree (f : ℕ) (hf : f ∈ fl) : use f = .free := (ho.free f).mp hf
  refine ⟨ho.tree.linked, ho.chain, fun f hf => ?_, fun f hf => by rw [shape, hfree f hf]⟩
  have hp := ho.page f (by simp [hfree f hf])
  exact ⟨hp.1, hp.2.2⟩

theorem Extended.refl (hA : TablesApart sh fl h) : Extended 0 sh fl h sh fl h :=
  ⟨hA, rfl, fun _ _ hx => hx, fun _ _ hx => .inl hx, List.Subset.refl fl, fun _ _ _ _ _ _ => rfl,
    rfl⟩

theorem Extended.trans (he : Extended n sh fl h sh' fl' h')
    (he' : Extended n' sh' fl' h' sh'' fl'' h'') : Extended (n + n') sh fl h sh'' fl'' h'' := by
  refine ⟨he'.apart, ?_, fun t x hx => he'.keeps t x (he.keeps t x hx), fun t x hx => ?_,
    fun f hf => he.rest (he'.rest hf), he.walks.trans he'.walks fun r hr => he.keeps r _ hr,
    he'.root.trans he.root⟩
  · rw [he.used, he'.used, Nat.add_assoc, Nat.add_comm n']
  · rcases he'.new t x hx with hx | ht
    · exact he.new t x hx
    · exact .inr (he.rest ht)

theorem TablesApart.alloc_nil (hA : TablesApart sh [] h) : pmmAllocPage h = (0, h) := by
  have h0 : h.freeStack = 0 := hA.chain
  rw [pmmAllocPage, if_pos h0]

theorem TablesApart.alloc_eq (hA : TablesApart sh (f :: fl) h) : pmmAllocPage h = (f, h.take f) :=
  pmmAllocPage_taken hA.chain.1 hA.chain.2.1

/-- A page of the free list, filled for it, becomes the table below an entry. -/
theorem TablesApart.link {h1 : Machine} {bits : ℕ} (hA : TablesApart sh (f :: fl) h)
    (ht : sh t = some (r, p)) (hi : i < 512) (hb : bits = 3 ∨ bits = 7)
    (hm : ∀ a, a < f ∨ f + 4096 ≤ a → h1.mem a = h.mem a)
    (hs : h1.freeStack = load64 h.mem f) (hroot : h1.pagingRoot = h.pagingRoot)
    (hz : p.length < 2 → ∀ k < 512, entry h1.mem f k = 0)
    (hw : WalksAgree sh (fun _ _ => False) h.mem (setEntry h1 t i (f ||| bits)).mem) :
    Extended 1 sh (f :: fl) h (Function.update sh f (some (r, p ++ [i]))) fl
      (setEntry h1 t i (f ||| bits)) := by
  have hL := hA.linked
  obtain ⟨hf0, hf64⟩ := hA.page f List.mem_cons_self
  have hf := hA.free f List.mem_cons_self
  have hbits : bits < 4096 := by omega
  have hup (g : ℕ) : Function.update sh f (some (r, p ++ [i])) g =
      if g = f then some (r, p ++ [i]) else sh g := Function.update_apply ..
  have hold {g : ℕ} {x : ℕ × List ℕ} (hg : sh g = some x) :
      Function.update sh f (some (r, p ++ [i])) g = some x := by
    rw [hup, if_neg, hg]
    rintro rfl
    rw [hf] at hg
    cases hg
  have he : entry (setEntry h1 t i (f ||| bits)).mem t i = f ||| bits :=
    entry_store_self (or_lt hf0 hbits hf64)
  have hother {t' r' : ℕ} {p' : List ℕ} (ht' : sh t' = some (r', p')) {i' : ℕ} (hi' : i' < 512)
      (hne : ¬ (t' = t ∧ i' = i)) :=
    entry_linked (v := f ||| bits) hL ht hi hf0 hf hm t' ht' hi' hne
  have hnew {k : ℕ} (hk : k < 512) :
      entry (setEntry h1 t i (f ||| bits)).mem f k = entry h1.mem f k :=
    entry_taken hL ht hi hf0 hf (f ||| bits) hk
  have htf : f ≠ t := by
    rintro rfl
    rw [hf] at ht
    cases ht
  refine ⟨⟨⟨?_, ?_, ?_⟩, ?_, fun g hg => hA.page g (List.mem_cons_of_mem f hg), fun g hg => ?_⟩,
    rfl,
    fun g x hg => hold hg, fun g x hg => ?_, List.subset_cons_self f fl, hw, hroot⟩
  · intro g r' p' hg
    rw [hup] at hg
    split at hg
    next hgf => rw [hgf]; exact hf0
    · exact hL.aligned g r' p' hg
  · intro g r' p' hg hp' k hk hpres
    rw [hup] at hg
    split at hg
    next hgf =>
      -- the new table has no entries when it is of the second level
      obtain ⟨rfl, rfl⟩ := Prod.mk.inj (Option.some.inj hg)
      rw [List.length_append, List.length_singleton] at hp'
      rw [hgf, hnew hk, hz (by omega) k hk] at hpres
      cases hpres
    · by_cases hh : g = t ∧ k = i
      · rw [hh.1, hh.2, he]
        exact (link_bits hf0 hb).2
      · rw [hother hg hk hh] at hpres ⊢
        exact hL.flat g r' p' hg hp' k hk hpres
  · intro g r' p' hg hp' k hk hpres hleaf
    rw [hup] at hg
    split at hg
    next hgf =>
      obtain ⟨rfl, rfl⟩ := Prod.mk.inj (Option.some.inj hg)
      rw [List.length_append, List.length_singleton] at hp'
      rw [hgf, hnew hk, hz (by omega) k hk] at hpres
      cases hpres
    · by_cases hh : g = t ∧ k = i
      · obtain ⟨rfl, rfl⟩ := hh
        obtain ⟨rfl, rfl⟩ := Prod.mk.inj (Option.some.inj (ht.symm.trans hg))
        rw [he, frameOf_or hf0 hbits, hup, if_pos rfl]
      · rw [hother hg hk hh] at hpres hleaf ⊢
        exact hold (hL.child g r' p' hg hp' k hk hpres hleaf)
  · -- the links of the remaining free pages are in none of the pages written
    have hc := hA.chain.2.2
    have hnot := (List.nodup_cons.mp hA.chain.nodup).1
    show Chain (load64 (setEntry h1 t i (f ||| bits)).mem) 0 h1.freeStack fl
    rw [hs]
    refine hc.congr fun g hg => load_congr fun j hj => ?_
    have hg0 := (hA.page g (List.mem_cons_of_mem f hg)).1
    have hgf : g ≠ f := fun he => hnot (he ▸ hg)
    have hgt : g ≠ t := by
      rintro rfl
      rw [hA.free g (List.mem_cons_of_mem f hg)] at ht
      cases ht
    have ht0 := hL.aligned t r p ht
    rw [setEntry_outside h1 _ hi (by omega), hm _ (by omega)]
  · rw [hup, if_neg]
    · exact hA.free g (List.mem_cons_of_mem f hg)
    · rintro rfl
      exact (List.nodup_cons.mp hA.chain.nodup).1 hg
  · rw [hup] at hg
    split at hg
    next hgf => exact .inr (hgf ▸ List.mem_cons_self)
    · exact .inl hg

/-- Linking a page where there was no table, or the parts of a 2 MiB leaf in its place. -/
theorem TablesApart.grafted {h1 : Machine} {bits : ℕ} (hA : TablesApart sh (f :: fl) h)
    (ht : sh t = some (r, p)) (hi : i < 512) (hp : p.length < 3)
    (hb : bits = if p.length = 2 then 7 else 3)
    (hm : ∀ a, a < f ∨ f + 4096 ≤ a → h1.mem a = h.mem a)
    (hparts : present (entry h.mem t i) → p.length = 2 ∧ huge (entry h.mem t i) ∧ ∀ k < 512,
      entry h1.mem f k = entry h.mem t i / 2 ^ 21 * 2 ^ 21 + k * 4096 + entry h.mem t i % 512) :
    Grafted (fun r' q => r' = r ∧ q = p ++ [i]) sh h.mem (setEntry h1 t i (f ||| bits)).mem := by
  have hL := hA.linked
  obtain ⟨hf0, hf64⟩ := hA.page f List.mem_cons_self
  have hf := hA.free f List.mem_cons_self
  have hbits : bits < 4096 := by
    rw [hb]
    split <;> decide
  have he : entry (setEntry h1 t i (f ||| bits)).mem t i = f ||| bits :=
    entry_store_self (or_lt hf0 hbits hf64)
  intro t' r' p' ht' i' hi'
  by_cases hne : t' = t ∧ i' = i
  · obtain ⟨rfl, rfl⟩ := hne
    obtain ⟨rfl, rfl⟩ := Prod.mk.inj (Option.some.inj (ht.symm.trans ht'))
    refine .inr ⟨⟨rfl, rfl⟩, hp, ?_, fun hpres => ?_⟩
    · rw [he, or_eq_add hf0 hbits, ← hb]
      omega
    · obtain ⟨h2, hh, hk⟩ := hparts hpres
      refine ⟨h2, hh, fun k hk' => ?_⟩
      rw [he, frameOf_or hf0 hbits, entry_taken hL ht hi hf0 hf _ hk', hk k hk']
  · exact .inl (entry_linked hL ht hi hf0 hf hm t' ht' hi' hne)

/-- The table below an entry: found, or one page of the free list. -/
theorem ensureTable_apart {bits : ℕ} (hA : TablesApart sh fl h) (hr : sh r = some (r, []))
    (hat : TableAt present h.mem r p t) (hp : p.length < 3) (hi : i < 512)
    (hbits : bits = if p.length = 2 then 7 else 3)
    (hl : present (entry h.mem t i) → p = [] ∨ huge (entry h.mem t i) = false) :
    (fl = [] ∧ present (entry h.mem t i) = false ∧ ensureTable h t i bits = none) ∨
    ∃ h' e sh' fl', ensureTable h t i bits = some (h', e) ∧
      Extended (if present (entry h.mem t i) then 0 else 1) sh fl h sh' fl' h' ∧
      TableAt present h'.mem r (p ++ [i]) (frameOf e) ∧
      (present (entry h.mem t i) → h' = h ∧ e = entry h.mem t i) ∧
      (present (entry h.mem t i) = false → ∀ k < 512, entry h'.mem (frameOf e) k = 0) ∧
      Grafted (fun r' q => r' = r ∧ q = p ++ [i]) sh h.mem h'.mem ∧ fl' <:+ fl := by
  have hb : bits = 3 ∨ bits = 7 := by
    rw [hbits]
    split
    · exact .inr rfl
    · exact .inl rfl
  by_cases hpres : present (entry h.mem t i)
  · refine .inr ⟨h, entry h.mem t i, sh, fl, ?_, ?_, .next hat hi hp hpres (hl hpres),
      fun _ => ⟨rfl, rfl⟩, fun habs => ?_, Grafted.refl, List.suffix_rfl⟩
    · rw [ensureTable, if_pos hpres]
    · rw [if_pos hpres]
      exact .refl hA
    · rw [hpres] at habs
      cases habs
  have habs : present (entry h.mem t i) = false := by simpa using hpres
  cases fl with
  | nil =>
    refine .inl ⟨rfl, habs, ?_⟩
    rw [ensureTable, if_neg hpres, hA.alloc_nil]
    rfl
  | cons f fl =>
    have hst := hA.linked.tableAt access_present.present hr hat
    obtain ⟨hf0, hf64⟩ := hA.page f List.mem_cons_self
    have hf := hA.free f List.mem_cons_self
    have hlow : bits < 4096 := by omega
    have he : entry (setEntry (h.take f) t i (f ||| bits)).mem t i = f ||| bits :=
      entry_store_self (or_lt hf0 hlow hf64)
    obtain ⟨hpv, hhv⟩ := link_bits hf0 hb
    refine .inr ⟨setEntry (h.take f) t i (f ||| bits), f ||| bits,
      Function.update sh f (some (r, p ++ [i])), fl, ?_, ?_, ?_,
      fun hn => absurd hn hpres, fun _ k hk => ?_, hA.grafted hst hi hp hbits
        (fun a ha => h.take_outside ha) (fun hn => absurd hn hpres), List.suffix_cons f fl⟩
    · rw [ensureTable, if_neg hpres, hA.alloc_eq]
      simp only [if_neg hA.chain.2.1]
      rw [he]
    · rw [if_neg hpres]
      exact hA.link hst hi hb (fun a ha => h.take_outside ha) rfl rfl
        (fun _ k hk => h.take_entry f hk) (walks_linked hA.linked hst hi hf0 hf hp hf64 hb habs)
    · exact tableAt_linked hA.linked hst hi hf0 hf (fun a ha => h.take_outside ha) hr hat hp
        (or_lt hf0 hlow hf64) hpv hhv
    · rw [frameOf_or hf0 hlow]
      exact entry_linked_zero hA.linked hst hi hf0 hf _ hk

/-- The last-level table below an entry: found, split off a 2 MiB leaf, or a new one. -/
theorem ensurePt_apart (hA : TablesApart sh fl h) (hr : sh r = some (r, []))
    (hat : TableAt present h.mem r p t) (hp : p.length = 2) (hi : i < 512) :
    (fl = [] ∧ (present (entry h.mem t i) && !huge (entry h.mem t i)) = false ∧
      ensurePt h t i = none) ∨
    ∃ h' e sh' fl', ensurePt h t i = some (h', e) ∧
      Extended (if present (entry h.mem t i) && !huge (entry h.mem t i) then 0 else 1)
        sh fl h sh' fl' h' ∧ TableAt present h'.mem r (p ++ [i]) (frameOf e) ∧
      Grafted (fun r' q => r' = r ∧ q = p ++ [i]) sh h.mem h'.mem ∧ fl' <:+ fl := by
  by_cases hc : (present (entry h.mem t i) && huge (entry h.mem t i)) = true
  · obtain ⟨hpres, hh⟩ := Bool.and_eq_true_iff.mp hc
    have hcost : (present (entry h.mem t i) && !huge (entry h.mem t i)) = false := by
      rw [hpres, hh]
      rfl
    rw [ensurePt, if_pos hc, hcost]
    cases fl with
    | nil =>
      refine .inl ⟨rfl, rfl, ?_⟩
      rw [splitHuge, hA.alloc_nil]
      rfl
    | cons f fl =>
      have hst := hA.linked.tableAt access_present.present hr hat
      obtain ⟨hf0, hf64⟩ := hA.page f List.mem_cons_self
      have hf := hA.free f List.mem_cons_self
      have hv : f ||| 7 < 2 ^ 64 := or_lt hf0 (by decide) hf64
      have he : entry (setEntry (h.takeParts f (entry h.mem t i)) t i (f ||| 7)).mem t i =
        f ||| 7 :=
        entry_store_self hv
      obtain ⟨hpv, hhv⟩ := link_bits hf0 (.inr rfl)
      have hm (a : ℕ) (ha : a < f ∨ f + 4096 ≤ a) := h.takeParts_outside (entry h.mem t i) ha
      refine .inr ⟨setEntry (h.takeParts f (entry h.mem t i)) t i (f ||| 7), f ||| 7,
        Function.update sh f (some (r, p ++ [i])), fl, ?_,
        hA.link hst hi (.inr rfl) hm rfl rfl (fun hn => absurd hn (by omega))
          (walks_parts hA.linked hst hi hf0 hf hp hf64 hh),
        tableAt_linked hA.linked hst hi hf0 hf hm hr hat (by omega) hv hpv hhv,
        hA.grafted hst hi (by omega) (by rw [if_pos hp]) hm (fun _ =>
          ⟨hp, hh, fun k hk => h.takeParts_entry f (load64_lt _ _) hk⟩), List.suffix_cons f fl⟩
      have heq : splitHuge h t i = some (setEntry (h.takeParts f (entry h.mem t i)) t i (f ||| 7),
          entry (setEntry (h.takeParts f (entry h.mem t i)) t i (f ||| 7)).mem t i) := by
        rw [splitHuge, hA.alloc_eq]
        simp only [if_neg hA.chain.2.1]
        rfl
      rw [heq, he]
  · rw [ensurePt, if_neg hc]
    have hcost : (present (entry h.mem t i) && !huge (entry h.mem t i)) =
        present (entry h.mem t i) := by
      cases hpres : present (entry h.mem t i) with
      | false => rfl
      | true => simpa [hpres] using hc
    rw [hcost]
    rcases ensureTable_apart hA hr hat (by omega) hi (by rw [if_pos hp])
      (fun hpres => .inr (by simpa [hpres] using hc)) with
        hnone | ⟨h', e, sh', fl', heq, hx, hat', -, -, hg⟩
    · exact .inl hnone
    · exact .inr ⟨h', e, sh', fl', heq, hx, hat', hg⟩

/-- An entry without tables below it is written on the way of an address. -/
theorem setEntry_apart {v : ℕ} (hA : TablesApart sh fl h) (ht : sh t = some (r, p)) (hi : i < 512)
    (hv : v < 2 ^ 64) (hp : 2 ≤ p.length) (hh : p.length = 2 → huge v) :
    TablesApart sh fl (setEntry h t i v) := by
  have ht0 := hA.linked.aligned t r p ht
  have hother {t' r' : ℕ} {p' : List ℕ} (ht' : sh t' = some (r', p')) {i' : ℕ} (hi' : i' < 512)
      (hne : ¬ (t' = t ∧ i' = i)) : entry (setEntry h t i v).mem t' i' = entry h.mem t' i' :=
    entry_store_ne ht0 (hA.linked.aligned t' r' p' ht') hi hi' hne
  have hself : entry (setEntry h t i v).mem t i = v := entry_store_self hv
  refine ⟨⟨hA.linked.aligned, fun t' r' p' ht' hp' i' hi' hpres => ?_,
    fun t' r' p' ht' hp' i' hi' hpres hleaf => ?_⟩, ?_, hA.page, hA.free⟩
  · have hne : ¬ (t' = t ∧ i' = i) := by
      rintro ⟨rfl, -⟩
      obtain ⟨-, rfl⟩ := Prod.mk.inj (Option.some.inj (ht.symm.trans ht'))
      omega
    rw [hother ht' hi' hne] at hpres ⊢
    exact hA.linked.flat t' r' p' ht' hp' i' hi' hpres
  · have hne : ¬ (t' = t ∧ i' = i) := by
      rintro ⟨rfl, rfl⟩
      obtain ⟨-, rfl⟩ := Prod.mk.inj (Option.some.inj (ht.symm.trans ht'))
      have h2 : p.length = 2 := by omega
      exact hleaf ⟨h2, by rw [hself]; exact hh h2⟩
    rw [hother ht' hi' hne] at hpres hleaf ⊢
    exact hA.linked.child t' r' p' ht' hp' i' hi' hpres hleaf
  · refine hA.chain.congr fun g hg => load_congr fun j hj => ?_
    have hg0 := (hA.page g hg).1
    have hgt : g ≠ t := by
      rintro rfl
      rw [hA.free g hg] at ht
      cases ht
    exact setEntry_outside h v hi (by omega)

/-- The entry written on the way of `virt`, below the first `d` of its indices. -/
structure Rewritten (d virt v : ℕ) (sh : Shape) (fl : List ℕ) (h : Machine) (sh' : Shape)
    (fl' : List ℕ) (h' : Machine) : Prop where
  apart : TablesApart sh' fl' h'
  keeps : ∀ t x, sh t = some x → sh' t = some x
  new : ∀ t x, sh' t = some x → sh t = some x ∨ t ∈ fl
  rest : fl' ⊆ fl
  walks : WalksAgree sh (fun r va => r = h.pagingRoot ∧ trail va (d + 1) = trail virt (d + 1))
    h.mem h'.mem
  leaf : ∃ t, TableAt present h'.mem h.pagingRoot (trail virt d) t ∧
    entry h'.mem t (index (3 - d) virt) = v
  root : h'.pagingRoot = h.pagingRoot

theorem Extended.rewritten {d virt v : ℕ} (hx : Extended n sh fl h sh' fl' h')
    (hr : sh h.pagingRoot = some (h.pagingRoot, []))
    (hat : TableAt present h'.mem h.pagingRoot (trail virt d) t) (hd : d = 2 ∨ d = 3)
    (hv : v < 2 ^ 64) (hh : d = 2 → huge v) :
    Rewritten d virt v sh fl h sh' fl' (setEntry h' t (index (3 - d) virt) v) := by
  have hL := hx.apart.linked
  have hsr := hx.keeps _ _ hr
  have hst := hL.tableAt access_present.present hsr hat
  have hi := index_lt (3 - d) virt
  have hag (t' r' : ℕ) (p' : List ℕ) (ht' : sh' t' = some (r', p')) (i' : ℕ)
      (hi' : i' < 512) (hne : ¬ (t' = t ∧ i' = index (3 - d) virt)) :
      entry (setEntry h' t (index (3 - d) virt) v).mem t' i' = entry h'.mem t' i' :=
    entry_store_ne (hL.aligned _ _ _ hst) (hL.aligned _ _ _ ht') hi hi' hne
  have hset := hL.walks_set hst (by rw [trail_length]; omega) hag
  rw [trail_length, ← trail_succ] at hset
  refine ⟨setEntry_apart hx.apart hst hi hv (by rw [trail_length]; omega) (by rwa [trail_length]),
    hx.keeps, hx.new, hx.rest, ?_, ⟨t, ?_, entry_store_self hv⟩, hx.root⟩
  · exact (hx.walks.mono fun _ _ hf => hf.elim).trans hset fun r' hr' => hx.keeps _ _ hr'
  · refine hat.congr hL access_present.present hsr fun t' q ht' hq i' hi' => ?_
    refine hag t' _ q ht' i' hi' ?_
    rintro ⟨rfl, -⟩
    obtain ⟨-, rfl⟩ := Prod.mk.inj (Option.some.inj (hst.symm.trans ht'))
    exact lt_irrefl _ hq

end

/-- The tables on the way of `virt` that do not exist yet. -/
def missingTables (h : Machine) (virt phys : ℕ) : ℕ :=
  let last := if virt % 2 ^ 21 = 0 ∧ phys % 2 ^ 21 = 0 then 0 else 1
  let pml4e := entry h.mem h.pagingRoot (pml4Index virt)
  if !present pml4e then last + 2
  else
    let pdpte := entry h.mem (frameOf pml4e) (pdptIndex virt)
    if !present pdpte then last + 1
    else
      let pde := entry h.mem (frameOf pdpte) (pdtIndex virt)
      if present pde && !huge pde then 0 else last

/-- The addresses whose translation `map_page` may change: those of the page, and all of the
2 MiB region when both addresses are aligned to one. -/
def Touches (virt phys va : ℕ) : Prop :=
  trail va 4 = trail virt 4 ∨
    (virt % 2 ^ 21 = 0 ∧ phys % 2 ^ 21 = 0) ∧ trail va 3 = trail virt 3

/-- Where a mapped page leads: to its frame, or into the 2 MiB from there on. -/
def mappedTo (virt phys va : ℕ) : ℕ :=
  if virt % 2 ^ 21 = 0 ∧ phys % 2 ^ 21 = 0 then phys + va % 2 ^ 21 else phys + va % 4096

/-- The page `virt` was mapped to `phys`: the addresses touched lead there and the others are
translated as before. -/
structure Remaps (virt phys flags : ℕ) (sh : Shape) (fl : List ℕ) (h : Machine) (sh' : Shape)
    (fl' : List ℕ) (h' : Machine) : Prop where
  apart : TablesApart sh' fl' h'
  keeps : ∀ t x, sh t = some x → sh' t = some x
  new : ∀ t x, sh' t = some x → sh t = some x ∨ t ∈ fl
  rest : fl' ⊆ fl
  walks : WalksAgree sh (fun r va => r = h.pagingRoot ∧ Touches virt phys va) h.mem h'.mem
  mapped : present flags → ∀ va, Touches virt phys va →
    walk present h'.mem va 3 h.pagingRoot = some (mappedTo virt phys va)
  target : ∀ ok va pa, Touches virt phys va → walk ok h'.mem va 3 h.pagingRoot = some pa →
    pa = mappedTo virt phys va
  leaf : ∃ t, TableAt present h'.mem h.pagingRoot
      (trail virt (if virt % 2 ^ 21 = 0 ∧ phys % 2 ^ 21 = 0 then 2 else 3)) t ∧
    entry h'.mem t (if virt % 2 ^ 21 = 0 ∧ phys % 2 ^ 21 = 0 then pdtIndex virt else ptIndex virt) =
      if virt % 2 ^ 21 = 0 ∧ phys % 2 ^ 21 = 0 then phys ||| flags ||| pagePs else phys ||| flags
  root : h'.pagingRoot = h.pagingRoot

section

variable {sh sh' : Shape} {fl fl' : List ℕ} {h h' : Machine} {virt phys flags n : ℕ}

theorem hugeLeaf_eq (hphys : phys % 4096 = 0) (hf : flags < 128) :
    phys ||| flags ||| pagePs = phys + (flags + 128) := by
  have hps : flags ||| pagePs = flags + 128 := by
    rw [Nat.or_comm, Nat.add_comm]
    exact (Nat.two_pow_add_eq_or_of_lt (i := 7) hf 1).symm
  rw [Nat.or_assoc, hps, or_eq_add hphys (by omega)]

private theorem walk_hugeLeaf (ok : ℕ → Bool) {m : Mem} {t i va : ℕ} (hphys : phys % 2 ^ 21 = 0)
    (hf : flags < 128) (hi : index 1 va = i) (he : entry m t i = phys + (flags + 128)) :
    walk ok m va 1 t =
      if ok (phys + (flags + 128)) then some (phys + va % 2 ^ 21) else none := by
  have hh : huge (phys + (flags + 128)) := by
    simp only [huge, beq_iff_eq]
    omega
  have hleaf : leaf 1 (phys + (flags + 128)) va = phys + va % 2 ^ 21 := by
    simp only [leaf, Nat.mul_one, Nat.reduceAdd]
    omega
  simp only [walk, hi, he, hh, hleaf, Bool.and_true, Nat.zero_lt_two, decide_true, if_true]
  cases ok (phys + (flags + 128)) <;> rfl

private theorem walk_leaf (ok : ℕ → Bool) {m : Mem} {t i va : ℕ} (hphys : phys % 4096 = 0)
    (hf : flags < 128) (hi : index 0 va = i) (he : entry m t i = phys ||| flags) :
    walk ok m va 0 t = if ok (phys ||| flags) then some (phys + va % 4096) else none := by
  have hleaf : leaf 0 (phys ||| flags) va = phys + va % 4096 := by
    rw [or_eq_add hphys (by omega)]
    simp only [leaf, Nat.mul_zero, Nat.add_zero]
    omega
  simp only [walk, hi, he, hleaf]

theorem trail_last {va virt d : ℕ} (hva : trail va (d + 1) = trail virt (d + 1)) :
    trail va d = trail virt d ∧ index (3 - d) va = index (3 - d) virt := by
  rw [trail_succ, trail_succ] at hva
  obtain ⟨htr, hidx⟩ := List.append_inj' hva rfl
  exact ⟨htr, List.singleton_inj.mp hidx⟩

/-- A 2 MiB leaf was written. -/
theorem Rewritten.remaps_huge (hw : Rewritten 2 virt (phys + (flags + 128)) sh fl h sh' fl' h')
    (hc : virt % 2 ^ 21 = 0 ∧ phys % 2 ^ 21 = 0) (hf : flags < 128) :
    Remaps virt phys flags sh fl h sh' fl' h' := by
  obtain ⟨t, hat, he⟩ := hw.leaf
  have htouch {va : ℕ} (hva : Touches virt phys va) : trail va 3 = trail virt 3 :=
    hva.elim (fun h4 => (trail_last h4).1) fun h3 => h3.2
  have hto (va : ℕ) : mappedTo virt phys va = phys + va % 2 ^ 21 := if_pos hc
  have hleaf (ok : ℕ → Bool) {va : ℕ} (hva : Touches virt phys va) :=
    walk_hugeLeaf ok hc.2 hf (trail_last (htouch hva)).2 he
  refine ⟨hw.apart, hw.keeps, hw.new, hw.rest,
    hw.walks.mono fun r va hva => ⟨hva.1, .inr ⟨hc, hva.2⟩⟩,
    fun hpf va hva => ?_, fun ok va pa hva hpa => ?_, ⟨t, ?_, ?_⟩, hw.root⟩
  · have hp : present (phys + (flags + 128)) = true := by
      simp only [present, beq_iff_eq] at hpf ⊢
      omega
    rw [hat.walk_eq (l := 1) (trail_last (htouch hva)).1 rfl, hleaf present hva, if_pos hp, hto]
  · have hat := hat.walk_of_some (l := 1) (trail_last (htouch hva)).1 rfl hpa
    rw [hleaf ok hva] at hat
    split at hat
    · rw [hto]
      exact (Option.some.inj hat).symm
    · cases hat
  · rw [if_pos hc]
    exact hat
  · rw [if_pos hc, if_pos hc, hugeLeaf_eq (by omega) hf]
    exact he

/-- A 4 KiB leaf was written. -/
theorem Rewritten.remaps_page (hw : Rewritten 3 virt (phys ||| flags) sh fl h sh' fl' h')
    (hc : ¬ (virt % 2 ^ 21 = 0 ∧ phys % 2 ^ 21 = 0)) (hphys : phys % 4096 = 0) (hf : flags < 128) :
    Remaps virt phys flags sh fl h sh' fl' h' := by
  obtain ⟨t, hat, he⟩ := hw.leaf
  have htouch {va : ℕ} (hva : Touches virt phys va) : trail va 4 = trail virt 4 :=
    hva.elim id fun h3 => absurd h3.1 hc
  have hto (va : ℕ) : mappedTo virt phys va = phys + va % 4096 := if_neg hc
  have hleaf (ok : ℕ → Bool) {va : ℕ} (hva : Touches virt phys va) :=
    walk_leaf ok hphys hf (trail_last (htouch hva)).2 he
  refine ⟨hw.apart, hw.keeps, hw.new, hw.rest,
    hw.walks.mono fun r va hva => ⟨hva.1, .inl hva.2⟩,
    fun hpf va hva => ?_, fun ok va pa hva hpa => ?_, ⟨t, ?_, ?_⟩, hw.root⟩
  · have hp : present (phys ||| flags) = true := by rw [present_or hphys (by omega), hpf]
    rw [hat.walk_eq (l := 0) (trail_last (htouch hva)).1 rfl, hleaf present hva, if_pos hp, hto]
  · have hat := hat.walk_of_some (l := 0) (trail_last (htouch hva)).1 rfl hpa
    rw [hleaf ok hva] at hat
    split at hat
    · rw [hto]
      exact (Option.some.inj hat).symm
    · cases hat
  · rw [if_neg hc]
    exact hat
  · rw [if_neg hc, if_neg hc]
    exact he

/-- The missing tables, counted on the way down. -/
private theorem missingTables_eq {h1 h2 : Machine} {e1 e2 : ℕ}
    (hold1 : present (entry h.mem h.pagingRoot (pml4Index virt)) →
      h1 = h ∧ e1 = entry h.mem h.pagingRoot (pml4Index virt))
    (hnew1 : present (entry h.mem h.pagingRoot (pml4Index virt)) = false →
      ∀ k < 512, entry h1.mem (frameOf e1) k = 0)
    (hold2 : present (entry h1.mem (frameOf e1) (pdptIndex virt)) →
      h2 = h1 ∧ e2 = entry h1.mem (frameOf e1) (pdptIndex virt))
    (hnew2 : present (entry h1.mem (frameOf e1) (pdptIndex virt)) = false →
      ∀ k < 512, entry h2.mem (frameOf e2) k = 0) :
    missingTables h virt phys =
      (if present (entry h.mem h.pagingRoot (pml4Index virt)) then 0 else 1) +
      (if present (entry h1.mem (frameOf e1) (pdptIndex virt)) then 0 else 1) +
      if virt % 2 ^ 21 = 0 ∧ phys % 2 ^ 21 = 0 then 0
      else if present (entry h2.mem (frameOf e2) (pdtIndex virt)) &&
        !huge (entry h2.mem (frameOf e2) (pdtIndex virt)) then 0 else 1 := by
  have hfresh {e : ℕ} (he : e = 0) : (present e && !huge e) = false := by rw [he]; rfl
  by_cases hp1 : present (entry h.mem h.pagingRoot (pml4Index virt))
  · -- the equations are turned round: substituting would evaluate an entry on their right side
    obtain ⟨hh1, he1⟩ := hold1 hp1
    replace he1 := he1.symm
    subst hh1 he1
    by_cases hp2 : present (entry h1.mem
        (frameOf (entry h1.mem h1.pagingRoot (pml4Index virt))) (pdptIndex virt))
    · obtain ⟨hh2, he2⟩ := hold2 hp2
      replace he2 := he2.symm
      subst hh2 he2
      simp only [missingTables, hp1, hp2, Bool.not_true, Bool.false_eq_true, if_false, if_true,
        Nat.zero_add]
      split <;> split <;> rfl
    · have hz := hnew2 (by simpa using hp2) _ (index_lt 1 virt)
      have hz : entry h2.mem (frameOf e2) (pdtIndex virt) = 0 := hz
      simp only [missingTables, hp1, hp2, hfresh hz, Bool.not_true, Bool.not_false,
        Bool.false_eq_true, if_false, if_true, Nat.zero_add]
      split <;> rfl
  · have hz1 : entry h1.mem (frameOf e1) (pdptIndex virt) = 0 :=
      hnew1 (by simpa using hp1) _ (index_lt 2 virt)
    have hp2 : present (entry h1.mem (frameOf e1) (pdptIndex virt)) = false := by
      rw [hz1]
      rfl
    have hz : entry h2.mem (frameOf e2) (pdtIndex virt) = 0 := hnew2 hp2 _ (index_lt 1 virt)
    simp only [missingTables, hp1, hp2, hfresh hz, Bool.not_false, Bool.false_eq_true, if_false,
      if_true]
    split <;> rfl

/-- What `map_page` writes: tables on the way of `virt` as far as there are pages for them, then the
leaf, if all the tables are there. -/
theorem mapPage_tables (virt : ℕ) (hA : TablesApart sh fl h)
    (hr : sh h.pagingRoot = some (h.pagingRoot, [])) (hphys : phys % 4096 = 0) (hf : flags < 128) :
    ∃ n sh' fl' h', Extended n sh fl h sh' fl' h' ∧
      Grafted (fun r q => r = h.pagingRoot ∧ q = trail virt q.length) sh h.mem h'.mem ∧ fl' <:+ fl ∧
      (fl.length < missingTables h virt phys ∧ fl' = [] ∧ mapPage h virt phys flags = h' ∨
        fl.length = fl'.length + missingTables h virt phys ∧ ∃ t,
          (virt % 2 ^ 21 = 0 ∧ phys % 2 ^ 21 = 0) ∧
            TableAt present h'.mem h.pagingRoot (trail virt 2) t ∧
            mapPage h virt phys flags = setEntry h' t (pdtIndex virt) (phys + (flags + 128)) ∨
          ¬ (virt % 2 ^ 21 = 0 ∧ phys % 2 ^ 21 = 0) ∧
            TableAt present h'.mem h.pagingRoot (trail virt 3) t ∧
            mapPage h virt phys flags = setEntry h' t (ptIndex virt) (phys ||| flags)) := by
  rcases ensureTable_apart hA hr .root (by decide) (index_lt 3 virt) rfl
    (fun _ => .inl rfl) with ⟨rfl, habs, he1⟩ | ⟨h1, e1, sh1, fl1, he1, hx1, hat1, hold1, hnew1,
      hg1, hs1⟩
  · have he1 : ensureTable h h.pagingRoot (pml4Index virt) 3 = none := he1
    have habs : present (entry h.mem h.pagingRoot (pml4Index virt)) = false := habs
    rw [mapPage, he1]
    refine ⟨0, sh, [], h, .refl hA, Grafted.refl, List.suffix_rfl, .inl ⟨?_, rfl, rfl⟩⟩
    simp only [missingTables, habs, Bool.not_false, if_true, List.length_nil]
    omega
  have he1 : ensureTable h h.pagingRoot (pml4Index virt) 3 = some (h1, e1) := he1
  have hr1 := hx1.keeps _ _ hr
  have hst1 := hx1.apart.linked.tableAt access_present.present hr1 hat1
  have hused1 : fl.length = fl1.length +
    if present (entry h.mem h.pagingRoot (pml4Index virt)) then 0 else 1 := hx1.used
  have hg1 : Grafted (fun r q => r = h.pagingRoot ∧ q = trail virt q.length) sh h.mem h1.mem :=
    hg1.mono fun _ _ hq => ⟨hq.1, by rw [hq.2]; rfl⟩
  rcases ensureTable_apart hx1.apart hr1 hat1 (by simp) (index_lt 2 virt) rfl
    (fun hp => .inr (hx1.apart.linked.flat _ _ _ hst1 rfl _ (index_lt 2 virt) hp)) with
      ⟨rfl, habs, he2⟩ | ⟨h2, e2, sh2, fl2, he2, hx2, hat2, hold2, hnew2, hg2, hs2⟩
  · have he2 : ensureTable h1 (frameOf e1) (pdptIndex virt) 3 = none := he2
    rw [mapPage, he1]
    simp only [he2]
    refine ⟨_, sh1, [], h1, hx1, hg1, hs1, .inl ⟨?_, rfl, rfl⟩⟩
    by_cases hp1 : present (entry h.mem h.pagingRoot (pml4Index virt))
    · obtain ⟨hh1, hentry1⟩ := hold1 hp1
      replace hentry1 := hentry1.symm
      subst hh1 hentry1
      have habs : present (entry h1.mem (frameOf (entry h1.mem h1.pagingRoot (pml4Index virt)))
        (pdptIndex virt)) = false := habs
      rw [hused1, if_pos hp1]
      simp only [missingTables, hp1, habs, Bool.not_true, Bool.not_false, Bool.false_eq_true,
        if_false, if_true, List.length_nil]
      omega
    · rw [hused1, if_neg hp1]
      simp only [missingTables, hp1, Bool.not_false, if_true, List.length_nil]
      omega
  have he2 : ensureTable h1 (frameOf e1) (pdptIndex virt) 3 = some (h2, e2) := he2
  have hused2 : fl1.length = fl2.length +
    if present (entry h1.mem (frameOf e1) (pdptIndex virt)) then 0 else 1 := hx2.used
  have hcount : missingTables h virt phys = _ := missingTables_eq hold1 hnew1 hold2 hnew2
  have hg2 := hg1.trans hx1.apart.linked hx1.keeps
    (hg2.mono fun _ _ hq => ⟨hq.1, by rw [hq.2]; rfl⟩)
  have hs2 := hs2.trans hs1
  have hx2 := hx1.trans hx2
  have hr2 := hx2.keeps _ _ hr
  by_cases hc : virt % 2 ^ 21 = 0 ∧ phys % 2 ^ 21 = 0
  · refine ⟨_, sh2, fl2, h2, hx2, hg2, hs2, .inr ⟨?_, frameOf e2, .inl ⟨hc, hat2, ?_⟩⟩⟩
    · rw [hused1, hused2, hcount, if_pos hc]
      omega
    · rw [mapPage, he1]
      simp only [he2, if_pos hc, hugeLeaf_eq hphys hf]
  rcases ensurePt_apart hx2.apart hr2 hat2 rfl (index_lt 1 virt) with
      ⟨rfl, hcost, he3⟩ | ⟨h3, e3, sh3, fl3, he3, hx3, hat3, hg3, hs3⟩
  · have he3 : ensurePt h2 (frameOf e2) (pdtIndex virt) = none := he3
    have hcost : (present (entry h2.mem (frameOf e2) (pdtIndex virt)) &&
      !huge (entry h2.mem (frameOf e2) (pdtIndex virt))) = false := hcost
    rw [mapPage, he1]
    simp only [he2, if_neg hc, he3]
    refine ⟨_, sh2, [], h2, hx2, hg2, hs2, .inl ⟨?_, rfl, rfl⟩⟩
    rw [if_neg hc, hcost] at hcount
    rw [List.length_nil] at hused2
    simp only [Bool.false_eq_true, if_false] at hcount
    omega
  have he3 : ensurePt h2 (frameOf e2) (pdtIndex virt) = some (h3, e3) := he3
  have hused3 : fl2.length = fl3.length +
    if present (entry h2.mem (frameOf e2) (pdtIndex virt)) &&
      !huge (entry h2.mem (frameOf e2) (pdtIndex virt)) then 0 else 1 := hx3.used
  refine ⟨_, sh3, fl3, h3, hx2.trans hx3, hg2.trans hx2.apart.linked hx2.keeps
    (hg3.mono fun _ _ hq => ⟨hq.1, by rw [hq.2]; rfl⟩), hs3.trans hs2,
    .inr ⟨?_, frameOf e3, .inr ⟨hc, hat3, ?_⟩⟩⟩
  · rw [hused1, hused2, hused3, hcount, if_neg hc]
    omega
  · rw [mapPage, he1]
    simp only [he2, if_neg hc, he3]

/-- `map_page` runs out of pages for its tables and changes no translation, or it maps the page. -/
theorem mapPage_apart (virt : ℕ) (hA : TablesApart sh fl h)
    (hr : sh h.pagingRoot = some (h.pagingRoot, [])) (hphys : phys % 4096 = 0) (hlt : phys < 2 ^ 64)
    (hf : flags < 128) :
    (fl.length < missingTables h virt phys ∧ ∃ n sh', Extended n sh fl h sh' []
      (mapPage h virt phys flags)) ∨
    (missingTables h virt phys ≤ fl.length ∧ ∃ sh' fl',
      Remaps virt phys flags sh fl h sh' fl' (mapPage h virt phys flags)) := by
  obtain ⟨n, sh', fl', h', hx, -, -, ⟨hfew, rfl, heq⟩ | ⟨hcount, t, hleaf⟩⟩ :=
    mapPage_tables virt hA hr hphys hf
  · rw [heq]
    exact .inl ⟨hfew, n, sh', hx⟩
  have hused : missingTables h virt phys ≤ fl.length := by omega
  rcases hleaf with ⟨hc, hat, heq⟩ | ⟨hc, hat, heq⟩
  · have hh : huge (phys + (flags + 128)) = true := by
      simp only [huge, beq_iff_eq]
      omega
    have hw := hx.rewritten (d := 2) hr hat (.inl rfl) (by omega) fun _ => hh
    rw [heq]
    exact .inr ⟨hused, sh', fl', hw.remaps_huge hc hf⟩
  · have hw := hx.rewritten (d := 3) hr hat (.inr rfl)
      (or_lt hphys (show flags < 4096 by omega) hlt) fun h3 => absurd h3 (by decide)
    rw [heq]
    exact .inr ⟨hused, sh', fl', hw.remaps_page hc hphys hf⟩

end

/-- The page-table tree under a root: no table page is met on two ways from the root, and there
are no 1 GiB pages. -/
structure PageTree (m : Mem) (r : ℕ) : Prop where
  aligned : r % 4096 = 0
  distinct : ∀ p q t, TableAt present m r p t → TableAt present m r q t → p = q
  flat : ∀ i t, TableAt present m r [i] t → ∀ k < 512, present (entry m t k) →
    huge (entry m t k) = false

/-- The free list holds pages, and none of them is a table of the active root. -/
structure FreePages (fl : List ℕ) (h : Machine) : Prop where
  chain : Chain (load64 h.mem) 0 h.freeStack fl
  page : ∀ f ∈ fl, f % 4096 = 0 ∧ f < 2 ^ 64
  apart : ∀ f ∈ fl, ∀ p, ¬ TableAt present h.mem h.pagingRoot p f

open Classical in
/-- The table pages of a tree with their ways from the root. -/
noncomputable def treeShape (m : Mem) (r : ℕ) : Shape := fun t =>
  if ht : ∃ p, TableAt present m r p t then some (r, ht.choose) else none

section

variable {m : Mem} {r t : ℕ} {p : List ℕ}

theorem PageTree.shape_eq (hT : PageTree m r) (ht : TableAt present m r p t) :
    treeShape m r t = some (r, p) := by
  have hex : ∃ p, TableAt present m r p t := ⟨p, ht⟩
  rw [treeShape, dif_pos hex, hT.distinct _ p t hex.choose_spec ht]

theorem treeShape_tableAt {x : ℕ × List ℕ} (h : treeShape m r t = some x) :
    x.1 = r ∧ TableAt present m r x.2 t := by
  rw [treeShape] at h
  split at h
  next hex =>
    obtain rfl := Option.some.inj h
    exact ⟨rfl, hex.choose_spec⟩
  · cases h

theorem TableAt.aligned (hr : r % 4096 = 0) (ht : TableAt present m r p t) : t % 4096 = 0 := by
  cases ht with
  | root => exact hr
  | next _ _ _ _ _ => exact frameOf_mod _

theorem PageTree.linked (hT : PageTree m r) : Linked (treeShape m r) m := by
  refine ⟨fun t r' p ht => ?_, fun t r' p ht hp i hi hpres => ?_,
    fun t r' p ht hp i hi hpres hleaf => ?_⟩
  · exact TableAt.aligned hT.aligned (treeShape_tableAt ht).2
  · obtain ⟨j, rfl⟩ := List.length_eq_one_iff.mp hp
    exact hT.flat j t (treeShape_tableAt ht).2 i hi hpres
  · obtain ⟨rfl, hat⟩ := treeShape_tableAt ht
    refine hT.shape_eq (hat.next hi hp hpres ?_)
    rcases p with _ | ⟨j, _ | ⟨k, p⟩⟩
    · exact .inl rfl
    · exact .inr (hT.flat j t hat i hi hpres)
    · have h2 : (j :: k :: p).length = 2 := by
        rw [List.length_cons, List.length_cons] at hp ⊢
        omega
      exact .inr (by simpa [h2] using hleaf)

theorem PageTree.apart {fl : List ℕ} {h : Machine} (hT : PageTree h.mem h.pagingRoot)
    (hF : FreePages fl h) : TablesApart (treeShape h.mem h.pagingRoot) fl h := by
  refine ⟨hT.linked, hF.chain, hF.page, fun f hf => ?_⟩
  rw [treeShape, dif_neg]
  rintro ⟨p, hp⟩
  exact hF.apart f hf p hp

end

/-- Present and writable. -/
def writable (e : ℕ) : Bool := e % 4 == 3

/-- Present and open to user mode. -/
def userOpen (e : ℕ) : Bool := e % 2 == 1 && e / 4 % 2 == 1

theorem access_writable : Access writable := by
  refine ⟨fun e he => ?_, fun e => ?_, rfl⟩
  · simp only [writable, present, beq_iff_eq] at he ⊢
    omega
  · simp only [writable, show e % 8 % 4 = e % 4 by omega]

theorem access_userOpen : Access userOpen := by
  refine ⟨fun e he => ?_, fun e => ?_, rfl⟩
  · exact (Bool.and_eq_true_iff.mp he).1
  · simp only [userOpen, show e % 8 % 2 = e % 2 by omega, show e % 8 / 4 % 2 = e / 4 % 2 by omega]

/-- What the tables say about an address: where it leads, if it is present, and whether all levels
let it be written and be used in user mode. -/
structure Translation where
  target : Option ℕ
  write : Bool
  user : Bool
  deriving DecidableEq

def translation (m : Mem) (r va : ℕ) : Translation :=
  ⟨walk present m va 3 r, (walk writable m va 3 r).isSome, (walk userOpen m va 3 r).isSome⟩

theorem translation_target (m : Mem) (r va : ℕ) :
    (translation m r va).target = walk present m va 3 r := by
  simp only [translation]

theorem translation_write (m : Mem) (r va : ℕ) :
    (translation m r va).write = (walk writable m va 3 r).isSome := by
  simp only [translation]

theorem translation_user (m : Mem) (r va : ℕ) :
    (translation m r va).user = (walk userOpen m va 3 r).isSome := by
  simp only [translation]

theorem translation_ext {m m' : Mem} {r va : ℕ}
    (ht : (translation m' r va).target = (translation m r va).target)
    (hw : (translation m' r va).write = (translation m r va).write)
    (hu : (translation m' r va).user = (translation m r va).user) :
    translation m' r va = translation m r va := by
  rw [translation_target, translation_target] at ht
  rw [translation_write, translation_write] at hw
  rw [translation_user, translation_user] at hu
  rw [translation, translation, ht, hw, hu]

/-- The addresses that `map_page` is called for: a 2 MiB region or a 4 KiB page. -/
def InMapping (virt phys va : ℕ) : Prop :=
  if virt % 2 ^ 21 = 0 ∧ phys % 2 ^ 21 = 0 then va / 2 ^ 21 = virt / 2 ^ 21
  else va / 4096 = virt / 4096

section

variable {sh : Shape} {m m' : Mem} {r virt phys va : ℕ}

theorem translation_congr {changed : ℕ → ℕ → Prop} (hw : WalksAgree sh changed m m')
    (hr : sh r = some (r, [])) (hn : ¬ changed r va) : translation m' r va =
    translation m r va := by
  rw [translation, hw present access_present r hr va hn, hw writable access_writable r hr va hn,
    hw userOpen access_userOpen r hr va hn]
  rfl

theorem touches_of_inMapping (h : InMapping virt phys va) : Touches virt phys va := by
  rw [InMapping] at h
  split at h
  next hc => exact .inr ⟨hc, trail_region h⟩
  · exact .inl (trail_page h 4)

theorem inMapping_of_touches (hva : va < 2 ^ 48) (hvirt : virt < 2 ^ 48)
    (h : Touches virt phys va) : InMapping virt phys va := by
  rw [InMapping]
  split
  next hc =>
    refine trail_three_inj hva hvirt (h.elim (fun h4 => ?_) fun h3 => h3.2)
    exact (trail_last h4).1
  next hc => exact trail_four_inj hva hvirt (h.elim id fun h3 => absurd h3.1 hc)

end

end Mukrn
