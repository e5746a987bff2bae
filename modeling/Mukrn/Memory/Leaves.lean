import Mukrn.Memory.Tables

/-! The leaves that `map_page` leaves alone. A table added on its way changes a page's leaf only
when a 2 MiB leaf is split, and then the part has the same frame and low bits. With this a loop over
pages has in the end the leaves that its turns made. -/
namespace Mukrn
open ByteMemory PageTable

/-- The 4 KiB part of a 2 MiB leaf that an address lies in. -/
def leafPart (e va : ℕ) : ℕ := e / 2 ^ 21 * 2 ^ 21 + index 0 va * 4096 + e % 512

theorem leafPart_bits (e va : ℕ) : leafPart e va % 512 = e % 512 := by
  unfold leafPart
  omega

theorem leaf_leafPart (e va : ℕ) : leaf 0 (leafPart e va) va = leaf 1 e va := by
  simp only [leaf, leafPart, index, Nat.mul_zero, Nat.add_zero, Nat.mul_one, Nat.reduceAdd]
  omega

/-- A page leads to a frame, through a leaf with these bits below the size bit. -/
def Leads (m : Mem) (r va pa bits : ℕ) : Prop :=
  ∃ l e, LeafAt m r va l e ∧ leaf l e va = pa ∧ e % 128 = bits

section Page

variable {m : Mem} {r v va pa bits : ℕ}

theorem Leads.of_page (h : Leads m r v pa bits) (hv : v % 4096 = 0) (hp : va / 4096 = v / 4096) :
    Leads m r va (pa + va % 4096) bits := by
  obtain ⟨l, e, hleaf, rfl, hbits⟩ := h
  exact ⟨l, e, hleaf.of_page hp, hleaf.leaf_page hv hp, hbits⟩

theorem Leads.walk_eq (h : Leads m r va pa bits) : walk present m va 3 r = some pa := by
  obtain ⟨l, e, hleaf, rfl, -⟩ := h
  exact hleaf.walk_eq

end Page

section Grafts

variable {way : ℕ → List ℕ → Prop} {sh : Shape} {m m' : Mem} {r va : ℕ}

/-- Entries that lead to a table are not changed. -/
theorem Grafted.tableAt (hg : Grafted way sh m m') (hL : Linked sh m) {ok : ℕ → Bool}
    (hok : ∀ e, ok e → present e) {t : ℕ} {p : List ℕ} (hr : sh r = some (r, []))
    (hat : TableAt ok m r p t) : TableAt ok m' r p t := by
  induction hat with
  | root => exact .root
  | @next p t i hat hi hp he hl ih =>
    have hsame : entry m' t i = entry m t i := by
      refine (hg t r p (hL.tableAt hok hr hat) i hi).resolve_right fun hx => ?_
      obtain ⟨h2, hh, -⟩ := hx.2.parts (hok _ he)
      rcases hl with rfl | hflat
      · cases h2
      · rw [hh] at hflat
        cases hflat
    rw [← hsame] at he hl ⊢
    exact .next ih hi hp he hl

theorem Grafted.leafAt (hg : Grafted way sh m m') (hL : Linked sh m) (hr : sh r = some (r, []))
    {l e : ℕ} (h : LeafAt m r va l e) :
    LeafAt m' r va l e ∨ l = 1 ∧ LeafAt m' r va 0 (leafPart e va) := by
  cases h with
  | @page t hat hp =>
    have hst := hL.tableAt access_present.present hr hat
    have hsame : entry m' t (index 0 va) = entry m t (index 0 va) :=
      (hg t r _ hst _ (index_lt 0 va)).resolve_right fun hx => absurd hx.2.upper (by simp)
    rw [← hsame] at hp ⊢
    exact .inl (.page (hg.tableAt hL access_present.present hr hat) hp)
  | @large t hat hp hh =>
    have hst := hL.tableAt access_present.present hr hat
    have hat' := hg.tableAt hL access_present.present hr hat
    rcases hg t r _ hst _ (index_lt 1 va) with hsame | ⟨-, hx⟩
    · rw [← hsame] at hp hh ⊢
      exact .inl (.large hat' hp hh)
    · -- the leaf was split
      obtain ⟨hp', hh'⟩ := hx.link
      have hparts : entry m' (frameOf (entry m' t (index 1 va))) (index 0 va) =
          leafPart (entry m t (index 1 va)) va := (hx.parts hp).2.2 _ (index_lt 0 va)
      have hpart : present (leafPart (entry m t (index 1 va)) va) := by
        have hbits := leafPart_bits (entry m t (index 1 va)) va
        simp only [present, beq_iff_eq] at hp ⊢
        omega
      have hat3 : TableAt present m' r (trail va 3) _ :=
        hat'.next (index_lt 1 va) (by simp) hp' (.inr hh')
      rw [← hparts] at hpart ⊢
      exact .inr ⟨rfl, .page hat3 hpart⟩

theorem Grafted.leads (hg : Grafted way sh m m') (hL : Linked sh m) (hr : sh r = some (r, []))
    {pa bits : ℕ} (h : Leads m r va pa bits) : Leads m' r va pa bits := by
  obtain ⟨l, e, hleaf, hpa, hbits⟩ := h
  rcases hg.leafAt hL hr hleaf with hleaf' | ⟨rfl, hleaf'⟩
  · exact ⟨l, e, hleaf', hpa, hbits⟩
  · refine ⟨0, leafPart e va, hleaf', (leaf_leafPart e va).trans hpa, ?_⟩
    have hlow := leafPart_bits e va
    omega

end Grafts

/-- What mapping pages does to an entry above the last level: it stays, or a table is added below a
vacant one, or in a third-level table a table or a 2 MiB leaf takes its place. Where there was a
table before, that happens only if `large` pages are mapped. -/
inductive LinkStep (large : Prop) (d e e' : ℕ) : Prop
  | kept (heq : e' = e)
  | added (hd : d < 2) (habs : present e = false) (hlow : e' % 8 = 3)
  | table (hd : d = 2) (hlow : e' % 8 = 7) (hflat : huge e' = false)
      (hold : large ∨ (present e → huge e))
  | leaf (hd : d = 2) (hl : large) (hh : huge e')

theorem LinkStep.trans {large : Prop} {d e e' e'' : ℕ} (h : LinkStep large d e e')
    (h' : LinkStep large d e' e'') : LinkStep large d e e'' := by
  cases h with
  | kept heq => rwa [heq] at h'
  | added hd habs hlow =>
    cases h' with
    | kept heq => exact .added hd habs (heq ▸ hlow)
    | added _ habs' _ =>
      simp only [present, beq_eq_false_iff_ne] at habs'
      omega
    | table hd' _ _ _ => omega
    | leaf hd' _ _ => omega
  | table hd hlow hflat hold =>
    cases h' with
    | kept heq => exact .table hd (heq ▸ hlow) (heq ▸ hflat) hold
    | added hd' _ _ => omega
    | table _ hlow' hflat' hold' =>
      have hp : present e' = true := by
        simp only [present, beq_iff_eq]
        omega
      refine .table hd hlow' hflat' (.inl (hold'.resolve_right fun hh => ?_))
      rw [hh hp] at hflat
      cases hflat
    | leaf _ hl hh => exact .leaf hd hl hh
  | leaf hd hl hh =>
    cases h' with
    | kept heq => exact .leaf hd hl (heq ▸ hh)
    | added hd' _ _ => omega
    | table _ hlow' hflat' _ => exact .table hd hlow' hflat' (.inl hl)
    | leaf _ _ hh' => exact .leaf hd hl hh'

def LinksKept (large : Prop) (sh : Shape) (m m' : Mem) : Prop :=
  ∀ t r p, sh t = some (r, p) → p.length < 3 → ∀ i < 512,
    LinkStep large p.length (entry m t i) (entry m' t i)

theorem LinkStep.mono {large large' : Prop} {d e e' : ℕ} (hl : large → large')
    (h : LinkStep large d e e') : LinkStep large' d e e' := by
  cases h with
  | kept heq => exact .kept heq
  | added hd habs hlow => exact .added hd habs hlow
  | table hd hlow hflat hold => exact .table hd hlow hflat (hold.imp_left hl)
  | leaf hd h hh => exact .leaf hd (hl h) hh

section Links

variable {large : Prop} {way : ℕ → List ℕ → Prop} {sh sh' : Shape} {m m' m'' : Mem} {r t : ℕ}
  {p : List ℕ} {ok : ℕ → Bool}

theorem LinksKept.of_eq (h : ∀ t x, sh t = some x → ∀ i < 512, entry m' t i = entry m t i) :
    LinksKept large sh m m' :=
  fun t _ _ ht _ i hi => .kept (h t _ ht i hi)

theorem LinksKept.trans (h : LinksKept large sh m m')
    (hk : ∀ t x, sh t = some x → sh' t = some x) (h' : LinksKept large sh' m' m'') :
    LinksKept large sh m m'' :=
  fun t r p ht hp i hi => (h t r p ht hp i hi).trans (h' t r p (hk t _ ht) hp i hi)

theorem LinksKept.mono {large' : Prop} (hl : large → large') (h : LinksKept large sh m m') :
    LinksKept large' sh m m' :=
  fun t r p ht hp i hi => (h t r p ht hp i hi).mono hl

theorem Grafted.links (hg : Grafted way sh m m') : LinksKept large sh m m' := by
  intro t r p ht hp i hi
  rcases hg t r p ht i hi with heq | ⟨-, hx⟩
  · exact .kept heq
  have hlow := hx.low
  by_cases h2 : p.length = 2
  · rw [if_pos h2] at hlow
    exact .table h2 (by omega) hx.link.2 (.inr fun hpres => (hx.parts hpres).2.1)
  · rw [if_neg h2] at hlow
    refine .added (by omega) (Bool.eq_false_iff.mpr fun hpres => h2 (hx.parts hpres).1) (by omega)

/-- A leaf that is written changes no link, except that a 2 MiB leaf may take the place of one. -/
theorem LinksKept.set (large : Prop) {h : Machine} {i v : ℕ} (hL : Linked sh h.mem)
    (ht : sh t = some (r, p)) (hi : i < 512) (hv : v < 2 ^ 64) (hp : 2 ≤ p.length)
    (hl : p.length = 2 → large ∧ huge v) :
    LinksKept large sh h.mem (setEntry h t i v).mem := by
  intro t' r' p' ht' hp' i' hi'
  by_cases hne : t' = t ∧ i' = i
  · obtain ⟨rfl, rfl⟩ := hne
    obtain ⟨-, rfl⟩ := Prod.mk.inj (Option.some.inj (ht.symm.trans ht'))
    have h2 : p.length = 2 := by omega
    have he : entry (setEntry h t' i' v).mem t' i' = v := entry_store_self hv
    refine .leaf h2 (hl h2).1 ?_
    rw [he]
    exact (hl h2).2
  · exact .kept (entry_store_ne (hL.aligned _ _ _ ht) (hL.aligned _ _ _ ht') hi hi' hne)

/-- The tables above the third level stay, with all their rights. -/
theorem LinksKept.tableAt (hk : LinksKept large sh m m') (hL : Linked sh m)
    (hok : ∀ e, ok e → present e) (hr : sh r = some (r, [])) (hat : TableAt ok m r p t)
    (hp : p.length ≤ 2) : TableAt ok m' r p t := by
  induction hat with
  | root => exact .root
  | @next p t i hat hi h3 he hl ih =>
    rw [List.length_append, List.length_singleton] at hp
    cases hk t r p (hL.tableAt hok hr hat) h3 i hi with
    | kept heq =>
      rw [← heq] at he hl ⊢
      exact .next (ih (by omega)) hi h3 he hl
    | added _ habs _ =>
      rw [hok _ he] at habs
      cases habs
    | table hd _ _ _ => omega
    | leaf hd _ _ => omega

/-- A table that user mode can reach through was there before, with the same rights. -/
theorem LinksKept.tableAt_of (hk : LinksKept large sh m m') (hL : Linked sh m)
    (hr : sh r = some (r, [])) (hok : ∀ e, ok e → present e) (hu : TableAt userOpen m' r p t)
    (hat : TableAt ok m' r p t) (hp : p.length ≤ 2) :
    TableAt userOpen m r p t ∧ TableAt ok m r p t := by
  induction hat with
  | root => exact ⟨.root, .root⟩
  | @next p t i hat hi h3 he hl ih =>
    rw [List.length_append, List.length_singleton] at hp
    obtain ⟨t0, hu0, -, -, he0, -, -⟩ := hu.link
    obtain rfl : t0 = t :=
      (hu0.mono access_userOpen.present).unique (hat.mono hok)
    obtain ⟨hu1, hat1⟩ := ih hu0 (by omega)
    cases hk t0 r p (hL.tableAt hok hr hat1) h3 i hi with
    | kept heq =>
      rw [heq] at he hl he0 ⊢
      exact ⟨.next hu1 hi h3 he0 hl, .next hat1 hi h3 he hl⟩
    | added _ _ hlow =>
      simp only [userOpen, Bool.and_eq_true, beq_iff_eq] at he0
      omega
    | table hd _ _ _ => omega
    | leaf hd _ _ => omega

end Links

/-- The tables down to the third level grant an access, and so does the link to the last-level table
if there is one. -/
def WayOpen (ok : ℕ → Bool) (m : Mem) (r virt : ℕ) : Prop :=
  ∃ t, TableAt ok m r (trail virt 2) t ∧ (present (entry m t (pdtIndex virt)) →
    huge (entry m t (pdtIndex virt)) = false → ok (entry m t (pdtIndex virt)))

section Rights

variable {large : Prop} {sh sh' : Shape} {m m' : Mem} {r virt pa flags : ℕ} {ok : ℕ → Bool}

/-- On an open way a leaf grants what its own bits grant. -/
theorem LinksKept.grants (hk : LinksKept large sh m m') (hL : Linked sh m)
    (hr : sh r = some (r, [])) (hok : Access ok) (hway : WayOpen ok m r virt)
    (hl : Leads m' r virt pa flags) (hflags : ok flags) : walk ok m' virt 3 r = some pa := by
  obtain ⟨t, hat, hpde⟩ := hway
  have hlen := trail_length virt 2
  have hat' := hk.tableAt hL hok.present hr hat (by omega)
  obtain ⟨l, e, hleaf, rfl, hbits⟩ := hl
  have hoke : ok e = true := by
    rw [hok.bits, show e % 8 = flags % 8 by omega, ← hok.bits]
    exact hflags
  cases hleaf with
  | @page t3 hat3 hp =>
    obtain ⟨t2, hat2, -, -, hp2, hh2, rfl⟩ := TableAt.link (trail_succ virt 2 ▸ hat3)
    obtain rfl : t2 = t := hat2.unique (hat'.mono hok.present)
    have hh2 := hh2.resolve_left (List.ne_nil_of_length_eq_add_one hlen)
    have hstep := hk t2 r _ (hL.tableAt hok.present hr hat) (by omega) _ (index_lt 1 virt)
    have hok2 : ok (entry m' t2 (index (3 - 2) virt)) := by
      cases hstep with
      | kept heq =>
        have heq : entry m' t2 (pdtIndex virt) = entry m t2 (pdtIndex virt) := heq
        have hp2 : present (entry m' t2 (pdtIndex virt)) := hp2
        have hh2 : huge (entry m' t2 (pdtIndex virt)) = false := hh2
        rw [heq] at hp2 hh2
        show ok (entry m' t2 (pdtIndex virt)) = true
        rw [heq]
        exact hpde hp2 hh2
      | added hd _ _ => omega
      | table _ hlow _ _ =>
        rw [hok.bits]
        have hlow : entry m' t2 (index (3 - 2) virt) % 8 = 7 := hlow
        rw [hlow]
        exact hok.full
      | leaf _ _ hh =>
        have hh : huge (entry m' t2 (index (3 - 2) virt)) = true := hh
        rw [hh] at hh2
        cases hh2
    have hat3' : TableAt ok m' r (trail virt 3) _ :=
      hat'.next (index_lt 1 virt) (by omega) hok2 (.inr hh2)
    exact (TableAt.walk_last hat3).mpr ⟨hat3', hoke, rfl⟩
  | @large t2 hat2 hp hh =>
    obtain rfl : t2 = t := hat2.unique (hat'.mono hok.present)
    rw [hat'.walk_eq (l := 1) rfl rfl]
    simp only [walk, hoke, hh, Bool.not_true, Bool.false_eq_true, if_false, Nat.zero_lt_two,
      decide_true, Bool.and_true, if_true]

/-- What user mode can access, through tables that were only added to, had an open way before. -/
theorem LinksKept.wayOpen (hk : LinksKept False sh m m') (hL : Linked sh m) (hL' : Linked sh' m')
    (hr : sh r = some (r, [])) (hr' : sh' r = some (r, [])) (hok : Access ok)
    (hu : walk userOpen m' virt 3 r = some pa) (hw : walk ok m' virt 3 r = some pa) :
    WayOpen ok m r virt := by
  have hlen := trail_length virt 2
  obtain ⟨t, hat, hp⟩ := hL'.exists_third hr' (walk_mono access_userOpen.present hu)
  obtain ⟨-, hat0⟩ := hk.tableAt_of hL hr hok.present (hat.grant (by rw [hlen]) hu)
    (hat.grant (by rw [hlen]) hw) (by omega)
  refine ⟨t, hat0, fun hp0 hh0 => ?_⟩
  have hst := hL.tableAt hok.present hr hat0
  cases hk t r _ hst (by omega) _ (index_lt 1 virt) with
  | kept heq =>
    have heq : entry m' t (pdtIndex virt) = entry m t (pdtIndex virt) := heq
    have hh : huge (entry m' t (pdtIndex virt)) = false := by
      rw [heq]
      exact hh0
    have hat3 : TableAt present m' r (trail virt 3) _ :=
      hat.next (index_lt 1 virt) (by omega) hp (.inr hh)
    have hgrant := hat3.grant (by rw [trail_length]) hw
    obtain ⟨t0, hat0', -, -, hok0, -, -⟩ := TableAt.link (trail_succ virt 2 ▸ hgrant)
    obtain rfl : t0 = t := (hat0'.mono hok.present).unique hat
    rw [← heq]
    exact hok0
  | added hd _ _ => omega
  | table _ _ _ hold =>
    have hhuge : huge (entry m t (pdtIndex virt)) = true := (hold.resolve_left id) hp0
    rw [hhuge] at hh0
    cases hh0
  | leaf _ hl _ => exact hl.elim

end Rights

section Map

variable {sh : Shape} {fl : List ℕ} {h : Machine} {r t virt va phys flags d : ℕ}

/-- An entry on the way of one address does not matter for an address that leaves the way before. -/
theorem Leads.set {v pa bits : ℕ} (hL : Linked sh h.mem) (hr : sh r = some (r, []))
    (hat : TableAt present h.mem r (trail virt d) t) (hva : trail va (d + 1) ≠ trail virt (d + 1))
    (hl : Leads h.mem r va pa bits) :
    Leads (setEntry h t (index (3 - d) virt) v).mem r va pa bits := by
  obtain ⟨l, e, hleaf, hpa⟩ := hl
  have hst := hL.tableAt access_present.present hr hat
  refine ⟨l, e, hleaf.congr hL hr fun t' j _ ht' => ?_, hpa⟩
  refine entry_store_ne (hL.aligned _ _ _ hst) (hL.aligned _ _ _ ht') (index_lt _ virt)
    (index_lt _ va) ?_
  rintro ⟨rfl, hidx⟩
  have htr : trail va j = trail virt d := (Prod.mk.inj (Option.some.inj (ht'.symm.trans hst))).2
  have hjd : j = d := by
    have hlen := congrArg List.length htr
    rwa [trail_length, trail_length] at hlen
  rw [hjd] at htr hidx
  apply hva
  rw [trail_succ, trail_succ, htr, hidx]

/-- A 2 MiB leaf is there for every address of its region. -/
theorem leads_large {m : Mem} (hat : TableAt present m r (trail virt 2) t)
    (he : entry m t (index 1 virt) = phys + (flags + 128))
    (hc : virt % 2 ^ 21 = 0 ∧ phys % 2 ^ 21 = 0) (hf : flags < 128) (hpf : present flags)
    (hva : trail va 3 = trail virt 3) : Leads m r va (mappedTo virt phys va) flags := by
  obtain ⟨h2, hi⟩ := trail_last hva
  rw [← h2] at hat
  rw [← show index 1 va = index 1 virt from hi] at he
  refine ⟨1, _, .large hat ?_ ?_, ?_, ?_⟩
  · rw [he]
    simp only [present, beq_iff_eq] at hpf ⊢
    omega
  · rw [he]
    simp only [huge, beq_iff_eq]
    omega
  · rw [he, mappedTo, if_pos hc]
    simp only [leaf, Nat.mul_one, Nat.reduceAdd]
    omega
  · rw [he]
    omega

theorem leads_page {m : Mem} (hat : TableAt present m r (trail virt 3) t)
    (he : entry m t (index 0 virt) = phys ||| flags)
    (hc : ¬ (virt % 2 ^ 21 = 0 ∧ phys % 2 ^ 21 = 0))
    (hphys : phys % 4096 = 0) (hf : flags < 128) (hpf : present flags) :
    Leads m r virt (mappedTo virt phys virt) flags := by
  rw [or_eq_add hphys (by omega)] at he
  refine ⟨0, _, .page hat ?_, ?_, ?_⟩
  · rw [he]
    simp only [present, beq_iff_eq] at hpf ⊢
    omega
  · rw [he, mappedTo, if_neg hc]
    simp only [leaf, Nat.mul_zero, Nat.add_zero]
    omega
  · rw [he]
    omega

/-- What a call of `map_page` that finds pages for its tables does. -/
structure PageMapped (virt phys flags : ℕ) (sh : Shape) (fl : List ℕ) (h : Machine) (sh' : Shape)
    (fl' : List ℕ) (h' : Machine) : Prop where
  apart : TablesApart sh' fl' h'
  keeps : ∀ t x, sh t = some x → sh' t = some x
  rest : fl' <:+ fl
  used : fl.length = fl'.length + missingTables h virt phys
  root : h'.pagingRoot = h.pagingRoot
  self : Leads h'.mem h.pagingRoot virt (phys + virt % 4096) flags
  other : ∀ va pa bits, ¬ Touches virt phys va → Leads h.mem h.pagingRoot va pa bits →
    Leads h'.mem h.pagingRoot va pa bits
  links : LinksKept (virt % 2 ^ 21 = 0 ∧ phys % 2 ^ 21 = 0) sh h.mem h'.mem
  table : ¬ (virt % 2 ^ 21 = 0 ∧ phys % 2 ^ 21 = 0) →
    ∃ t, TableAt present h'.mem h.pagingRoot (trail virt 3) t
  elsewhere : ∀ t va, sh t = some (h.pagingRoot, trail va 2) → trail va 3 ≠ trail virt 3 →
    entry h'.mem t (pdtIndex va) = entry h.mem t (pdtIndex va)

/-- A third-level entry of another region is neither written nor linked. -/
private theorem entry_elsewhere {h' : Machine} {sh' : Shape} {v : ℕ}
    (hg : Grafted (fun r q => r = h.pagingRoot ∧ q = trail virt q.length) sh h.mem h'.mem)
    (hk : ∀ t x, sh t = some x → sh' t = some x) (hL : Linked sh' h'.mem)
    (hr : sh' h.pagingRoot = some (h.pagingRoot, []))
    (hat : TableAt present h'.mem h.pagingRoot (trail virt d) t) {t' : ℕ}
    (ht' : sh t' = some (h.pagingRoot, trail va 2)) (hva : trail va 3 ≠ trail virt 3) :
    entry (setEntry h' t (index (3 - d) virt) v).mem t' (pdtIndex va) =
      entry h.mem t' (pdtIndex va) := by
  have hst := hL.tableAt access_present.present hr hat
  have hlen := trail_length va 2
  have hset : entry (setEntry h' t (index (3 - d) virt) v).mem t' (pdtIndex va) =
      entry h'.mem t' (pdtIndex va) := by
    refine entry_store_ne (hL.aligned _ _ _ hst) (hL.aligned _ _ _ (hk _ _ ht')) (index_lt _ virt)
      (index_lt 1 va) ?_
    rintro ⟨rfl, hidx⟩
    have htr : trail va 2 = trail virt d :=
      (Prod.mk.inj (Option.some.inj ((hk _ _ ht').symm.trans hst))).2
    have hd2 : d = 2 := by
      have hl := congrArg List.length htr
      rw [trail_length, trail_length] at hl
      exact hl.symm
    rw [hd2] at htr hidx
    apply hva
    have hidx : index (3 - 2) va = index (3 - 2) virt := hidx
    rw [trail_succ va 2, trail_succ virt 2, htr, hidx]
  rw [hset]
  refine (hg t' _ _ ht' (pdtIndex va) (index_lt 1 va)).resolve_right fun hx => hva ?_
  have hway := hx.1.2
  rw [List.length_append, List.length_singleton, hlen] at hway
  exact hway

/-- Whether or not there are pages for tables, `map_page` adds tables and sets a leaf at most. -/
theorem mapPage_links (virt : ℕ) (hA : TablesApart sh fl h)
    (hr : sh h.pagingRoot = some (h.pagingRoot, [])) (hphys : phys % 4096 = 0) (hlt : phys < 2 ^ 64)
    (hf : flags < 128) : LinksKept (virt % 2 ^ 21 = 0 ∧ phys % 2 ^ 21 = 0) sh h.mem
      (mapPage h virt phys flags).mem := by
  obtain ⟨n, sh', fl', h', hx, hg, -, ⟨-, -, heq⟩ | ⟨-, t, ⟨hc, hat, heq⟩ | ⟨hc, hat, heq⟩⟩⟩ :=
    mapPage_tables virt hA hr hphys hf
  · rw [heq]
    exact hg.links
  · have hst := hx.apart.linked.tableAt access_present.present (hx.keeps _ _ hr) hat
    have hh : huge (phys + (flags + 128)) = true := by
      simp only [huge, beq_iff_eq]
      omega
    rw [heq]
    exact hg.links.trans hx.keeps (LinksKept.set _ hx.apart.linked hst (index_lt 1 virt) (by omega)
      (by simp) fun _ => ⟨hc, hh⟩)
  · have hst := hx.apart.linked.tableAt access_present.present (hx.keeps _ _ hr) hat
    have hv : phys ||| flags < 2 ^ 64 := or_lt hphys (show flags < 4096 by omega) hlt
    rw [heq]
    exact hg.links.trans hx.keeps (LinksKept.set _ hx.apart.linked hst (index_lt 0 virt) hv
      (by simp) fun h2 => absurd h2 (by simp))

/-- With enough pages for its tables `map_page` makes the leaf it is called for. -/
theorem mapPage_mapped (virt : ℕ) (hA : TablesApart sh fl h)
    (hr : sh h.pagingRoot = some (h.pagingRoot, [])) (hphys : phys % 4096 = 0) (hlt : phys < 2 ^ 64)
    (hf : flags < 128) (hpf : present flags) (hn : missingTables h virt phys ≤ fl.length) :
    ∃ sh' fl', PageMapped virt phys flags sh fl h sh' fl' (mapPage h virt phys flags) := by
  have hlinks := mapPage_links virt hA hr hphys hlt hf
  obtain ⟨n, sh', fl', h', hx, hg, hs, ⟨hfew, -⟩ | ⟨hcount, t, hleaf⟩⟩ :=
    mapPage_tables virt hA hr hphys hf
  · omega
  have hL' := hx.apart.linked
  have hr' := hx.keeps _ _ hr
  refine ⟨sh', fl', ?_⟩
  rcases hleaf with ⟨hc, hat, heq⟩ | ⟨hc, hat, heq⟩
  · have hh : huge (phys + (flags + 128)) = true := by
      simp only [huge, beq_iff_eq]
      omega
    have hw := hx.rewritten (d := 2) hr hat (.inl rfl) (by omega) fun _ => hh
    obtain ⟨t', hat', he⟩ := hw.leaf
    have hself := leads_large hat' he hc hf hpf rfl
    rw [heq] at hlinks ⊢
    refine ⟨hw.apart, hw.keeps, hs, hcount, hx.root, ?_, fun va pa bits hva hl => ?_,
      hlinks, fun hn => absurd hc hn, fun t' va ht' hva => ?_⟩
    · have hto : mappedTo virt phys virt = phys + virt % 4096 := by
        rw [mappedTo, if_pos hc]
        omega
      rw [← hto]
      exact hself
    · exact Leads.set (d := 2) hL' hr' hat (fun h3 => hva (.inr ⟨hc, h3⟩))
        (hg.leads hA.linked hr hl)
    · exact entry_elsewhere (d := 2) hg hx.keeps hL' hr' hat ht' hva
  · have hv : phys ||| flags < 2 ^ 64 := or_lt hphys (show flags < 4096 by omega) hlt
    have hw := hx.rewritten (d := 3) hr hat (.inr rfl) hv fun h3 => absurd h3 (by decide)
    obtain ⟨t', hat', he⟩ := hw.leaf
    have hself := leads_page hat' he hc hphys hf hpf
    rw [heq] at hlinks ⊢
    refine ⟨hw.apart, hw.keeps, hs, hcount, hx.root, ?_, fun va pa bits hva hl => ?_,
      hlinks, fun _ => ⟨t', hat'⟩, fun t' va ht' hva => ?_⟩
    · have hto : mappedTo virt phys virt = phys + virt % 4096 := if_neg hc
      rw [← hto]
      exact hself
    · exact Leads.set (d := 3) hL' hr' hat (fun h4 => hva (.inl h4)) (hg.leads hA.linked hr hl)
    · exact entry_elsewhere (d := 3) hg hx.keeps hL' hr' hat ht' hva

end Map

end Mukrn
