import Mukrn.Memory.Unmap

/-! `map_page_flags` and `mprotect`. The new flags replace the low nine bits of the leaf. In a
last-level entry these are its rights; in a 2 MiB leaf they also hold the bit that makes it one, so
that the frame is taken for a table afterwards. -/
namespace Mukrn
open ByteMemory PageTable Runs

/-- The low nine bits of an entry are replaced. -/
def reflagEntry (h : Machine) (t i flags : ℕ) : Machine :=
  setEntry h t i (withFlags (entry h.mem t i) flags)

section Flags

variable {flags : ℕ} (e : ℕ)

theorem frameOf_withFlags (flags : ℕ) : frameOf (withFlags e flags) = frameOf e := by
  rw [withFlags_eq, frameOf, frameOf]
  omega

theorem withFlags_low (flags : ℕ) : withFlags e flags % 8 = flags % 8 := by
  rw [withFlags_eq]
  omega

theorem present_withFlags (hp : present flags) : present (withFlags e flags) = true := by
  rw [withFlags_eq]
  simp only [present, beq_iff_eq] at hp ⊢
  omega

theorem huge_withFlags (hf : flags < 128) : huge (withFlags e flags) = false := by
  rw [withFlags_eq]
  simp only [huge, beq_eq_false_iff_ne]
  omega

end Flags

section Words

variable {h : Machine} {m m' m'' : Mem} {r t i virt va flags : ℕ}

/-- Every entry of a table page keeps its address bits and its presence, and none becomes a large
leaf. -/
def Reworded (m m' : Mem) : Prop :=
  ∀ t i, t % 4096 = 0 → i < 512 → frameOf (entry m' t i) = frameOf (entry m t i) ∧
    present (entry m' t i) = present (entry m t i) ∧ (huge (entry m' t i) → huge (entry m t i))

theorem Reworded.refl (m : Mem) : Reworded m m := fun _ _ _ _ => ⟨rfl, rfl, id⟩

theorem Reworded.trans (h : Reworded m m') (h' : Reworded m' m'') : Reworded m m'' := by
  intro t i ht hi
  obtain ⟨hf, hp, hh⟩ := h t i ht hi
  obtain ⟨hf', hp', hh'⟩ := h' t i ht hi
  exact ⟨hf'.trans hf, hp'.trans hp, fun hn => hh (hh' hn)⟩

theorem Reworded.flat (h : Reworded m m') (ht : t % 4096 = 0) (hi : i < 512)
    (hh : huge (entry m t i) = false) : huge (entry m' t i) = false := by
  rw [Bool.eq_false_iff] at hh ⊢
  exact fun hn => hh ((h t i ht hi).2.2 hn)

/-- The tables stay where they are. -/
theorem Reworded.tableAt (h : Reworded m m') {p : List ℕ} (hr : r % 4096 = 0)
    (hat : TableAt present m r p t) : TableAt present m' r p t := by
  induction hat with
  | root => exact .root
  | @next p t i hat hi h3 he hleaf ih =>
    have ht := TableAt.aligned hr hat
    obtain ⟨hf, hp, -⟩ := h t i ht hi
    rw [← hf]
    exact .next ih hi h3 (hp.trans he) (hleaf.imp_right (h.flat ht hi))

theorem reflagEntry_reworded (ht : t % 4096 = 0) (hi : i < 512) (hp : present (entry h.mem t i))
    (hf : flags < 128) (hpf : present flags) : Reworded h.mem (reflagEntry h t i flags).mem := by
  intro t' i' ht' hi'
  by_cases hne : t' = t ∧ i' = i
  · have he : entry (reflagEntry h t i flags).mem t i = withFlags (entry h.mem t i) flags :=
      entry_store_self (withFlags_lt (load64_lt _ _) flags)
    rw [hne.1, hne.2, he, frameOf_withFlags, present_withFlags _ hpf, huge_withFlags _ hf]
    exact ⟨rfl, hp.symm, fun hn => absurd hn (by decide)⟩
  · have he : entry (reflagEntry h t i flags).mem t' i' = entry h.mem t' i' :=
      entry_store_ne ht ht' hi hi' hne
    rw [he]
    exact ⟨rfl, rfl, id⟩

/-- Where there is a third-level table, one of its leaves or an entry below it gets the flags. -/
theorem mapPageFlags_third (ht : thirdTable h.mem h.pagingRoot virt = some t) (flags : ℕ) :
    mapPageFlags h virt flags =
      if !present (entry h.mem t (pdtIndex virt)) then h
      else if huge (entry h.mem t (pdtIndex virt)) then reflagEntry h t (pdtIndex virt) flags
      else if !present (entry h.mem (frameOf (entry h.mem t (pdtIndex virt))) (ptIndex virt)) then h
      else reflagEntry h (frameOf (entry h.mem t (pdtIndex virt))) (ptIndex virt) flags := by
  simp only [thirdTable, Option.ite_none_right_eq_some, Option.some.injEq, Bool.and_eq_true,
    Bool.not_eq_true'] at ht
  obtain ⟨⟨⟨h1, h2⟩, h3⟩, rfl⟩ := ht
  simp only [mapPageFlags, h1, h2, h3, reflagEntry, Bool.not_true, Bool.false_eq_true, if_false]

/-- At most one entry of a table page is written. -/
theorem mapPageFlags_cases (hr : h.pagingRoot % 4096 = 0) (virt flags : ℕ) :
    mapPageFlags h virt flags = h ∨ ∃ t i, t % 4096 = 0 ∧ i < 512 ∧ present (entry h.mem t i) ∧
      mapPageFlags h virt flags = reflagEntry h t i flags := by
  cases hthird : thirdTable h.mem h.pagingRoot virt with
  | some t =>
    have ht := TableAt.aligned hr (thirdTable_iff.mp hthird)
    rw [mapPageFlags_third hthird]
    split
    · exact .inl rfl
    next hp =>
      split
      · exact .inr ⟨t, pdtIndex virt, ht, index_lt 1 virt, by simpa using hp, rfl⟩
      · split
        · exact .inl rfl
        next hp =>
          exact .inr ⟨_, ptIndex virt, frameOf_mod _, index_lt 0 virt, by simpa using hp, rfl⟩
  | none =>
    simp only [thirdTable, ite_eq_right_iff, reduceCtorEq, imp_false, Bool.and_eq_true,
      Bool.not_eq_true', not_and, Bool.not_eq_false] at hthird
    unfold mapPageFlags
    simp only
    split
    · exact .inl rfl
    next h1 =>
      split
      · exact .inl rfl
      next h2 =>
        rw [if_pos (hthird ⟨by simpa using h1, by simpa using h2⟩)]
        exact .inr ⟨_, pdptIndex virt, frameOf_mod _, index_lt 2 virt, by simpa using h2, rfl⟩

theorem mapPageFlags_reworded (virt : ℕ) (hr : h.pagingRoot % 4096 = 0) (hf : flags < 128)
    (hpf : present flags) : Reworded h.mem (mapPageFlags h virt flags).mem := by
  rcases mapPageFlags_cases hr virt flags with heq | ⟨t, i, ht, hi, hp, heq⟩
  · rw [heq]
    exact .refl _
  · rw [heq]
    exact reflagEntry_reworded ht hi hp hf hpf

/-- A 2 MiB leaf that gets new flags is none any more. -/
theorem mapPageFlags_flat (hr : h.pagingRoot % 4096 = 0) (hf : flags < 128) (hpf : present flags)
    (hat : TableAt present h.mem h.pagingRoot (trail virt 2) t)
    (hp : present (entry h.mem t (pdtIndex virt))) :
    huge (entry (mapPageFlags h virt flags).mem t (pdtIndex virt)) = false := by
  cases hh : huge (entry h.mem t (pdtIndex virt)) with
  | true =>
    have heq := mapPageFlags_third (thirdTable_iff.mpr hat) flags
    rw [hp, hh] at heq
    have he : entry (reflagEntry h t (pdtIndex virt) flags).mem t (pdtIndex virt) =
        withFlags (entry h.mem t (pdtIndex virt)) flags :=
      entry_store_self (withFlags_lt (load64_lt _ _) flags)
    have heq : mapPageFlags h virt flags = reflagEntry h t (pdtIndex virt) flags := heq
    rw [heq, he]
    exact huge_withFlags _ hf
  | false =>
    exact (mapPageFlags_reworded virt hr hf hpf).flat (TableAt.aligned hr hat) (index_lt 1 virt) hh

theorem foldl_mapPageFlags_reworded (hr : h.pagingRoot % 4096 = 0) (hf : flags < 128)
    (hpf : present flags) (vs : List ℕ) :
    Reworded h.mem (vs.foldl (fun h v => mapPageFlags h v flags) h).mem := by
  induction vs generalizing h with
  | nil => exact .refl _
  | cons v vs ih =>
    rw [List.foldl_cons]
    have hr' : (mapPageFlags h v flags).pagingRoot % 4096 = 0 := by
      rw [mapPageFlags_root]
      exact hr
    exact (mapPageFlags_reworded v hr hf hpf).trans (ih hr')

/-- The entry on the way of `virt` in the table `t`, `d` levels below the root, is present. -/
structure OnTrail (virt d t : ℕ) (h : Machine) : Prop where
  root : h.pagingRoot % 4096 = 0
  table : TableAt present h.mem h.pagingRoot (trail virt d) t
  entry : present (entry h.mem t (index (3 - d) virt))

theorem OnTrail.reflag {d : ℕ} (h0 : OnTrail virt d t h) (hf : flags < 128) (hpf : present flags)
    (v : ℕ) : OnTrail virt d t (mapPageFlags h v flags) := by
  have hW := mapPageFlags_reworded v h0.root hf hpf
  have hroot := mapPageFlags_root h v flags
  constructor
  · rw [hroot]
    exact h0.root
  · rw [hroot]
    exact hW.tableAt h0.root h0.table
  · have hkept := (hW t _ (TableAt.aligned h0.root h0.table) (index_lt (3 - d) virt)).2.1
    exact hkept.trans h0.entry

theorem foldl_mapPageFlags_flat (hr : h.pagingRoot % 4096 = 0) (hf : flags < 128)
    (hpf : present flags) {vs : List ℕ} (hv : virt ∈ vs)
    (hat : TableAt present h.mem h.pagingRoot (trail virt 2) t)
    (hp : present (entry h.mem t (pdtIndex virt))) :
    huge (entry (vs.foldl (fun h v => mapPageFlags h v flags) h).mem t (pdtIndex virt)) =
    false := by
  apply foldl_of_mem (P := OnTrail virt 2 t)
    (Q := fun h => huge (entry h.mem t (pdtIndex virt)) = false) hv ⟨hr, hat, hp⟩
  · exact fun h v hP => hP.reflag hf hpf v
  · exact fun h hP => mapPageFlags_flat hP.root hf hpf hP.table hP.entry
  · intro h v hP hQ
    exact (mapPageFlags_reworded v hP.root hf hpf).flat (TableAt.aligned hP.root hP.table)
      (index_lt 1 virt) hQ

/-- An entry with the new rights keeps them. -/
theorem mapPageFlags_kept (hr : h.pagingRoot % 4096 = 0) (ht : t % 4096 = 0) (hi : i < 512)
    (v : ℕ) (he : entry h.mem t i % 8 = flags % 8) :
    entry (mapPageFlags h v flags).mem t i % 8 = flags % 8 := by
  rcases mapPageFlags_cases hr v flags with heq | ⟨t', i', ht', hi', -, heq⟩
  · rw [heq]
    exact he
  · rw [heq]
    by_cases hne : t = t' ∧ i = i'
    · have hself : entry (reflagEntry h t' i' flags).mem t' i' = _ :=
        entry_store_self (withFlags_lt (load64_lt _ _) flags)
      rw [hne.1, hne.2, hself, withFlags_low]
    · have hother : entry (reflagEntry h t' i' flags).mem t i = entry h.mem t i :=
        entry_store_ne ht' ht hi' hi hne
      rw [hother]
      exact he

/-- The last-level entry of a page gets the new rights. -/
theorem mapPageFlags_low (hat : TableAt present h.mem h.pagingRoot (trail virt 3) t)
    (hp : present (entry h.mem t (ptIndex virt))) :
    entry (mapPageFlags h virt flags).mem t (ptIndex virt) % 8 = flags % 8 := by
  obtain ⟨t0, hat0, -, -, he0, hh0, rfl⟩ := TableAt.link (trail_succ virt 2 ▸ hat)
  have hne : trail virt 2 ≠ [] := List.ne_nil_of_length_eq_add_one (trail_length virt 2)
  have he0 : present (entry h.mem t0 (pdtIndex virt)) := he0
  have hh0 : huge (entry h.mem t0 (pdtIndex virt)) = false := hh0.resolve_left hne
  have hp : present (entry h.mem (frameOf (entry h.mem t0 (pdtIndex virt))) (ptIndex virt)) := hp
  have heq := mapPageFlags_third (thirdTable_iff.mpr hat0) flags
  rw [he0, hh0, hp] at heq
  have hself : entry (mapPageFlags h virt flags).mem
      (frameOf (entry h.mem t0 (pdtIndex virt))) (ptIndex virt) = withFlags (entry h.mem
        (frameOf (entry h.mem t0 (pdtIndex virt))) (ptIndex virt)) flags := by
    rw [heq]
    exact entry_store_self (withFlags_lt (load64_lt _ _) flags)
  exact (congrArg (· % 8) hself).trans (withFlags_low _ flags)

/-- The present last-level entries of the pages get the new rights. -/
theorem foldl_mapPageFlags_low (hr : h.pagingRoot % 4096 = 0) (hf : flags < 128)
    (hpf : present flags) {vs : List ℕ} (hv : virt ∈ vs)
    (hat : TableAt present h.mem h.pagingRoot (trail virt 3) t)
    (hp : present (entry h.mem t (ptIndex virt))) :
    entry (vs.foldl (fun h v => mapPageFlags h v flags) h).mem t (ptIndex virt) % 8 =
      flags % 8 := by
  apply foldl_of_mem (P := OnTrail virt 3 t)
    (Q := fun h => entry h.mem t (ptIndex virt) % 8 = flags % 8) hv ⟨hr, hat, hp⟩
  · exact fun h v hP => hP.reflag hf hpf v
  · exact fun h hP => mapPageFlags_low hP.table hP.entry
  · exact fun h v hP hQ => mapPageFlags_kept hP.root (TableAt.aligned hP.root hP.table)
      (index_lt 0 virt) v hQ

end Words

/-- The first page of the frame of a 2 MiB leaf holds the table of its own 4 KiB parts. -/
def SelfTable (m : Mem) (e : ℕ) : Prop :=
  ∀ k < 512, present (entry m (frameOf e) k) ∧
    frameOf (entry m (frameOf e) k) = e / 2 ^ 21 * 2 ^ 21 + k * 4096

/-- In every 2 MiB region there is an address with a given last index that the processor takes. -/
theorem exists_canonical (virt : ℕ) {k : ℕ} (hk : k < 512) :
    ∃ va, canonical va ∧ trail va 3 = trail virt 3 ∧ index 0 va = k := by
  have hlow : virt / 2 ^ 21 % 2 ^ 27 < 2 ^ 27 := Nat.mod_lt _ (by decide)
  generalize hb : virt / 2 ^ 21 % 2 ^ 27 = b at hlow
  refine ⟨if b < 2 ^ 26 then b * 2 ^ 21 + k * 4096 else 2 ^ 64 - 2 ^ 48 + (b * 2 ^ 21 + k * 4096),
    ?_⟩
  rw [trail_three_iff, hb]
  simp only [canonical, index, Bool.or_eq_true, Bool.and_eq_true, decide_eq_true_eq]
  split <;> omega

section Large

variable {h : Machine} {virt va t flags : ℕ} (hr : h.pagingRoot % 4096 = 0) (hf : flags < 128)
  (hpf : present flags)
include hr hf hpf

/-- After the loop the frame of a 2 MiB leaf of the range is walked as a table. -/
theorem foldl_mapPageFlags_walk {vs : List ℕ} (hv : virt ∈ vs)
    (hat : TableAt present h.mem h.pagingRoot (trail virt 2) t)
    (hp : present (entry h.mem t (pdtIndex virt))) (hva : trail va 3 = trail virt 3) {pa : ℕ}
    (hw : walk present (vs.foldl (fun h v => mapPageFlags h v flags) h).mem va 3 h.pagingRoot =
      some pa) :
    present (entry h.mem (frameOf (entry h.mem t (pdtIndex virt))) (index 0 va)) ∧
      pa = frameOf (entry h.mem (frameOf (entry h.mem t (pdtIndex virt))) (index 0 va)) +
        va % 4096 := by
  have hW := foldl_mapPageFlags_reworded hr hf hpf vs
  have hflat := foldl_mapPageFlags_flat hr hf hpf hv hat hp
  generalize (vs.foldl (fun h v => mapPageFlags h v flags) h).mem = m' at hW hflat hw
  obtain ⟨hframe, hpres, -⟩ := hW t (pdtIndex virt) (TableAt.aligned hr hat) (index_lt 1 virt)
  have hat' : TableAt present m' h.pagingRoot (trail va 3)
      (frameOf (entry h.mem t (pdtIndex virt))) := by
    rw [hva, ← hframe]
    exact (hW.tableAt hr hat).next (index_lt 1 virt) (by simp) (hpres.trans hp) (.inr hflat)
  obtain ⟨-, hlast, rfl⟩ := hat'.walk_last.mp hw
  obtain ⟨hf4, hp4, -⟩ := hW _ _ (frameOf_mod (entry h.mem t (pdtIndex virt))) (index_lt 0 va)
  refine ⟨hp4 ▸ hlast, ?_⟩
  rw [← hf4]
  exact leaf_zero _ va

/-- When all its addresses lead where they did, the leaf holds its own table. -/
theorem selfTable_of_kept {vs : List ℕ} (hv : virt ∈ vs)
    (hat : TableAt present h.mem h.pagingRoot (trail virt 2) t)
    (hp : present (entry h.mem t (pdtIndex virt))) (hh : huge (entry h.mem t (pdtIndex virt)))
    (hkept : ∀ va, canonical va →
      walk present (vs.foldl (fun h v => mapPageFlags h v flags) h).mem va 3 h.pagingRoot =
        walk present h.mem va 3 h.pagingRoot) :
    SelfTable h.mem (entry h.mem t (pdtIndex virt)) := by
  intro k hk
  obtain ⟨va, hcan, hva, rfl⟩ := exists_canonical virt hk
  obtain ⟨htr, hidx⟩ := trail_last hva
  have hbefore : walk present h.mem va 3 h.pagingRoot =
      some (leaf 1 (entry h.mem t (pdtIndex virt)) va) := by
    have hlen := trail_length virt 2
    have hidx : index 1 va = pdtIndex virt := hidx
    rw [hat.walk_eq (l := 1) (by rw [hlen]; exact htr) (by rw [hlen]), walk]
    simp only [hidx, hp, hh, Bool.not_true, Bool.false_eq_true, if_false, Nat.zero_lt_two,
      decide_true, Bool.and_true, if_true]
  obtain ⟨hpres, hpa⟩ := foldl_mapPageFlags_walk hr hf hpf hv hat hp hva
    ((hkept va hcan).trans hbefore)
  refine ⟨hpres, ?_⟩
  have h0 := frameOf_mod (entry h.mem (frameOf (entry h.mem t (pdtIndex virt))) (index 0 va))
  generalize frameOf (entry h.mem (frameOf (entry h.mem t (pdtIndex virt))) (index 0 va)) = f at *
  simp only [leaf, index, Nat.mul_zero, Nat.mul_one, Nat.add_zero, Nat.reduceAdd] at hpa ⊢
  omega

end Large

section Rights

variable {use : ℕ → Use} {fl : List ℕ} {h : Machine} {va pa flags : ℕ}
  (ho : Owned use fl h) (hr : use h.pagingRoot = .table h.pagingRoot [])
include ho hr

omit ho hr in
theorem HugeAt.of_region {m : Mem} {r v : ℕ} (h : HugeAt m r va) (h3 : trail va 3 = trail v 3) :
    HugeAt m r v := by
  obtain ⟨h2, hidx⟩ := trail_last h3
  have hidx : pdtIndex va = pdtIndex v := hidx
  rw [HugeAt, h2, hidx] at h
  exact h

/-- A page that is present and in no 2 MiB leaf has an entry of its own. -/
theorem exists_lastTable (hw : walk present h.mem va 3 h.pagingRoot = some pa)
    (hn : ¬ HugeAt h.mem h.pagingRoot va) :
    ∃ t, TableAt present h.mem h.pagingRoot (trail va 3) t ∧
      present (entry h.mem t (ptIndex va)) := by
  obtain ⟨t, hat2, hp2⟩ := ho.tree.linked.exists_third (shape_eq_some.mpr hr) hw
  have hflat : huge (entry h.mem t (index 1 va)) = false := by
    rw [Bool.eq_false_iff]
    exact fun hh => hn ⟨t, hat2, hp2, hh⟩
  have hat3 := hat2.next (index_lt 1 va) (by simp) hp2 (.inr hflat)
  exact ⟨_, hat3, hat3.present_of_walk rfl (l := 0) rfl hw⟩

/-- An access to a page of the loop is granted when the tables above its entry and the new flags
grant it. -/
theorem foldl_mapPageFlags_grants (hf : flags < 128) (hpf : present flags) {vs : List ℕ} {v : ℕ}
    (hn : ∀ v ∈ vs, ¬ HugeAt h.mem h.pagingRoot v) (hv : v ∈ vs) (hva : trail va 4 = trail v 4)
    (hw : walk present h.mem va 3 h.pagingRoot = some pa) {ok : ℕ → Bool} (hok : Access ok) :
    (walk ok (vs.foldl (fun h v => mapPageFlags h v flags) h).mem va 3 h.pagingRoot).isSome ↔
      (∃ t, TableAt ok h.mem h.pagingRoot (trail va 3) t) ∧ ok flags := by
  have hsr := shape_eq_some.mpr hr
  have hpage : h.pagingRoot % 4096 = 0 := (ho.page _ (by rw [hr]; simp)).1
  obtain ⟨h3, hidx⟩ := trail_last hva
  have hidx : ptIndex va = ptIndex v := hidx
  have hnva : ¬ HugeAt h.mem h.pagingRoot va := fun hh => hn v hv (hh.of_region h3)
  obtain ⟨t, hat, hp⟩ := exists_lastTable ho hr hw hnva
  have hlow := foldl_mapPageFlags_low hpage hf hpf hv (h3 ▸ hat) (hidx ▸ hp)
  have hF := foldl_mapPageFlags_spec ho hr flags hn
  generalize vs.foldl (fun h v => mapPageFlags h v flags) h = h' at hlow hF
  have hlen := trail_length va 3
  -- the tables above the last level are not written
  have hup {ok : ℕ → Bool} (hok : Access ok) {t : ℕ} :
      TableAt ok h'.mem h.pagingRoot (trail va 3) t ↔
        TableAt ok h.mem h.pagingRoot (trail va 3) t := by
    constructor
    · intro hat'
      exact hat'.congr hF.owned.tree.linked hok.present hsr fun t' q ht' hq i hi =>
        (hF.upper t' _ q (shape_eq_some.mp ht') (by omega) i hi).symm
    · intro hat'
      exact hat'.congr ho.tree.linked hok.present hsr fun t' q ht' hq i hi =>
        hF.upper t' _ q (shape_eq_some.mp ht') (by omega) i hi
  have hat' := (hup access_present).mpr hat
  have hent : ok (entry h'.mem t (index 0 va)) = ok flags := by
    rw [← hidx] at hlow
    have hlow : entry h'.mem t (index 0 va) % 8 = flags % 8 := hlow
    rw [hok.bits, hlow, ← hok.bits]
  rw [Option.isSome_iff_exists]
  constructor
  · rintro ⟨pa', hw'⟩
    obtain ⟨hgrant, hlast, -⟩ := hat'.walk_last.mp hw'
    exact ⟨⟨t, (hup hok).mp hgrant⟩, hent ▸ hlast⟩
  · rintro ⟨⟨t', hgrant⟩, hflags⟩
    obtain rfl := (hgrant.mono hok.present).unique hat
    exact ⟨_, hat'.walk_last.mpr ⟨(hup hok).mpr hgrant, hent.trans hflags, rfl⟩⟩

end Rights

/-- Only permissions change: every page leads where it did, a page outside the range keeps its
rights, and one inside can be written as asked. -/
structure ProtectsOnly (m m' : Mem) (r virt size flags : ℕ) : Prop where
  target : ∀ va, canonical va → (translation m' r va).target = (translation m r va).target
  outside : ∀ va, canonical va → ¬ InRange virt size va → translation m' r va = translation m r va
  inside : ∀ va, canonical va → InRange virt size va → (translation m r va).target ≠ none →
    (translation m' r va).write = decide (flags % 2 = 1)

/-- No page of the range is in a 2 MiB leaf. To become writable, a page has writable tables above
it. A page outside that has the index bits of one inside, which is then no canonical address, has
the rights that the call gives. -/
structure Protectable (m : Mem) (r virt size flags : ℕ) : Prop where
  small : ∀ v ∈ pageCursor (rangeStart virt) (rangeEnd virt size), ¬ HugeAt m r v
  inside : ∀ va, canonical va → InRange virt size va → (translation m r va).target ≠ none →
    flags % 2 = 1 → ∃ t, TableAt writable m r (trail va 3) t
  aliases : ∀ va, canonical va → ¬ InRange virt size va → (translation m r va).target ≠ none →
    ∀ v ∈ pageCursor (rangeStart virt) (rangeEnd virt size), trail va 4 = trail v 4 →
      ((translation m r va).write ↔
        (∃ t, TableAt writable m r (trail va 3) t) ∧ flags % 2 = 1) ∧
      ((translation m r va).user ↔ ∃ t, TableAt userOpen m r (trail va 3) t)

section Mprotect

variable {use : ℕ → Use} {fl : List ℕ} {h : Machine} (va : ℕ)

theorem mprotectFlags_bits (flags : ℕ) : mprotectFlags flags < 128 ∧ present (mprotectFlags flags) ∧
    userOpen (mprotectFlags flags) ∧ writable (mprotectFlags flags) = decide (flags % 2 = 1) := by
  unfold mprotectFlags
  by_cases h1 : flags % 2 = 1
  · rw [if_pos h1, decide_eq_true h1]
    decide
  · rw [if_neg h1, decide_eq_false h1]
    decide

theorem sysMprotect_mem {s : Kernel} {c : ℕ} (hc : s.currentTask = some c) (virt size flags : ℕ) :
    (sysMprotect s virt size flags).2.machine.mem =
      ((pageCursor (rangeStart virt) (rangeEnd virt size)).foldl
        (fun h v => mapPageFlags h v (mprotectFlags flags))
        (pagingSwitch s.machine (s.tasks c).pml4Phys)).mem := by
  simp only [sysMprotect, hc, underRoot, pagingSwitch_mem]

variable (ho : Owned use fl h) (hr : use h.pagingRoot = .table h.pagingRoot [])
  {vs : List ℕ} (hn : ∀ v ∈ vs, ¬ HugeAt h.mem h.pagingRoot v) (flags : ℕ)
include ho hr hn

/-- A page of the loop that is present stays where it is and has the rights that the tables above it
leave of those asked for. -/
theorem translation_reflagged {m' : Mem}
    (hm : (vs.foldl (fun h v => mapPageFlags h v (mprotectFlags flags)) h).mem = m') {v : ℕ}
    (hv : v ∈ vs) (hva : trail va 4 = trail v 4)
    (hp : (translation h.mem h.pagingRoot va).target ≠ none) :
    (translation m' h.pagingRoot va).target = (translation h.mem h.pagingRoot va).target ∧
    ((translation m' h.pagingRoot va).write ↔
      (∃ t, TableAt writable h.mem h.pagingRoot (trail va 3) t) ∧ flags % 2 = 1) ∧
    ((translation m' h.pagingRoot va).user ↔
      ∃ t, TableAt userOpen h.mem h.pagingRoot (trail va 3) t) := by
  obtain ⟨hf, hpf, huser, hwrite⟩ := mprotectFlags_bits flags
  rw [translation_target] at hp
  obtain ⟨pa, hw⟩ := Option.ne_none_iff_exists'.mp hp
  have hgrants (ok : ℕ → Bool) (hok : Access ok) :=
    foldl_mapPageFlags_grants ho hr hf hpf hn hv hva hw hok
  have htarget := (foldl_mapPageFlags_spec ho hr (mprotectFlags flags) hn).target present
    access_present va
  rw [hm] at hgrants htarget
  refine ⟨?_, ?_, ?_⟩
  · obtain ⟨h3, -⟩ := trail_last hva
    obtain ⟨t, hat, -⟩ := exists_lastTable ho hr hw fun hh => hn v hv (hh.of_region h3)
    obtain ⟨pa', hw'⟩ :=
      Option.isSome_iff_exists.mp ((hgrants present access_present).mpr ⟨⟨t, hat⟩, hpf⟩)
    rw [translation_target, translation_target, htarget pa' hw']
    exact hw'
  · have hg := hgrants writable access_writable
    rw [hwrite, decide_eq_true_iff] at hg
    rw [translation_write]
    exact hg
  · have hg := hgrants userOpen access_userOpen
    rw [and_iff_left huser] at hg
    rw [translation_user]
    exact hg

/-- Every other address is translated as before. -/
theorem translation_unflagged {m' : Mem}
    (hm : (vs.foldl (fun h v => mapPageFlags h v (mprotectFlags flags)) h).mem = m')
    (hva : (translation h.mem h.pagingRoot va).target ≠ none → ∀ v ∈ vs, trail va 4 ≠ trail v 4) :
    translation m' h.pagingRoot va = translation h.mem h.pagingRoot va := by
  obtain ⟨-, hwalks, htarget, -, -⟩ := foldl_mapPageFlags_spec ho hr (mprotectFlags flags) hn
  rw [hm] at hwalks htarget
  by_cases hp : (translation h.mem h.pagingRoot va).target = none
  · rw [translation_target] at hp
    rw [translation_absent hp]
    apply translation_absent
    by_contra hsome
    obtain ⟨pa, hw⟩ := Option.ne_none_iff_exists'.mp hsome
    rw [htarget present access_present va pa hw] at hp
    cases hp
  · apply translation_congr hwalks (shape_eq_some.mpr hr)
    rintro ⟨-, v, hv, heq⟩
    exact hva hp v hv heq

end Mprotect

/-- Without 2 MiB leaves in the range, `mprotect` does what it is for exactly when the rights of
the pages can be those asked for. -/
theorem protectsOnly_iff {use : ℕ → Use} {fl : List ℕ} {h : Machine} {m' : Mem}
    {virt size flags : ℕ}
    (ho : Owned use fl h) (hr : use h.pagingRoot = .table h.pagingRoot [])
    (hlt : virt + size + 4095 < 2 ^ 64)
    (hn : ∀ v ∈ pageCursor (rangeStart virt) (rangeEnd virt size), ¬ HugeAt h.mem h.pagingRoot v)
    (hm : ((pageCursor (rangeStart virt) (rangeEnd virt size)).foldl
      (fun h v => mapPageFlags h v (mprotectFlags flags)) h).mem = m') :
    ProtectsOnly h.mem m' h.pagingRoot virt size flags ↔
      Protectable h.mem h.pagingRoot virt size flags := by
  have hpage (va : ℕ) : trail va 4 = trail (va / 4096 * 4096) 4 := trail_page (by omega) 4
  have htouched (va : ℕ) {v : ℕ} (hv : v ∈ pageCursor (rangeStart virt) (rangeEnd virt size)) :=
    translation_reflagged va ho hr hn flags hm hv
  have hother (va : ℕ) := translation_unflagged va ho hr hn flags hm
  clear hm
  constructor
  · intro hP
    refine ⟨hn, fun va hcan hin hp hflag => ?_, fun va hcan hout hp v hv hva => ?_⟩
    · obtain ⟨-, hwrite, -⟩ := htouched va (hin.page hlt) (hpage va) hp
      rw [hP.inside va hcan hin hp, decide_eq_true_iff] at hwrite
      exact (hwrite.mp hflag).1
    · obtain ⟨-, hrights⟩ := htouched va hv hva hp
      rw [hP.outside va hcan hout] at hrights
      exact hrights
  · intro hC
    refine ⟨fun va hcan => ?_, fun va hcan hout => ?_, fun va hcan hin hp => ?_⟩
    · by_cases hva : (translation h.mem h.pagingRoot va).target ≠ none →
        ∀ v ∈ pageCursor (rangeStart virt) (rangeEnd virt size), trail va 4 ≠ trail v 4
      · rw [hother va hva]
      · push Not at hva
        obtain ⟨hp, v, hv, hva⟩ := hva
        exact (htouched va hv hva hp).1
    · by_cases hva : (translation h.mem h.pagingRoot va).target ≠ none →
        ∀ v ∈ pageCursor (rangeStart virt) (rangeEnd virt size), trail va 4 ≠ trail v 4
      · exact hother va hva
      · push Not at hva
        obtain ⟨hp, v, hv, hva⟩ := hva
        obtain ⟨htarget, hwrite, huser⟩ := htouched va hv hva hp
        obtain ⟨hwrite', huser'⟩ := hC.aliases va hcan hout hp v hv hva
        exact translation_ext htarget (Bool.eq_iff_iff.mpr (hwrite.trans hwrite'.symm))
          (Bool.eq_iff_iff.mpr (huser.trans huser'.symm))
    · obtain ⟨-, hwrite, -⟩ := htouched va (hin.page hlt) (hpage va) hp
      rw [Bool.eq_iff_iff, hwrite, decide_eq_true_iff, and_iff_right_iff_imp]
      exact hC.inside va hcan hin hp

/-- `mprotect` changes permissions only, and as asked, when the range meets no 2 MiB leaf, the
tables above a page to be written are writable, and no page is meant by a second address. Otherwise
it does not, unless the frame of a 2 MiB leaf of the range happens to hold the table of its own
parts. -/
theorem mprotect_iff {use : ℕ → Use} {fl : List ℕ} {s : Kernel} {c virt size : ℕ}
    (ho : Owned use fl s.machine) (hc : s.currentTask = some c)
    (hr : use (s.tasks c).pml4Phys = .table (s.tasks c).pml4Phys [])
    (hlt : virt + size + 4095 < 2 ^ 64) (flags : ℕ) :
    (Protectable s.machine.mem (s.tasks c).pml4Phys virt size flags →
      ProtectsOnly s.machine.mem (sysMprotect s virt size flags).2.machine.mem
        (s.tasks c).pml4Phys virt size flags) ∧
    (ProtectsOnly s.machine.mem (sysMprotect s virt size flags).2.machine.mem
        (s.tasks c).pml4Phys virt size flags →
      Protectable s.machine.mem (s.tasks c).pml4Phys virt size flags ∨
      ∃ v ∈ pageCursor (rangeStart virt) (rangeEnd virt size), ∃ t,
        TableAt present s.machine.mem (s.tasks c).pml4Phys (trail v 2) t ∧
        present (entry s.machine.mem t (pdtIndex v)) ∧ huge (entry s.machine.mem t (pdtIndex v)) ∧
        SelfTable s.machine.mem (entry s.machine.mem t (pdtIndex v))) := by
  have hpage := (ho.page _ (by rw [hr]; simp)).1
  have ho' := ho.switch (s.tasks c).pml4Phys
  obtain ⟨hf, hpf, -, -⟩ := mprotectFlags_bits flags
  have hmem := (sysMprotect_mem hc virt size flags).symm
  constructor
  · intro hC
    exact (protectsOnly_iff (h := pagingSwitch s.machine (s.tasks c).pml4Phys) ho' hr hlt hC.small
      hmem).mpr hC
  · intro hP
    by_cases hn : ∀ v ∈ pageCursor (rangeStart virt) (rangeEnd virt size),
        ¬ HugeAt s.machine.mem (s.tasks c).pml4Phys v
    · exact .inl ((protectsOnly_iff (h := pagingSwitch s.machine (s.tasks c).pml4Phys) ho' hr hlt hn
        hmem).mp hP)
    · push Not at hn
      obtain ⟨v, hv, t, hat, hp, hh⟩ := hn
      refine .inr ⟨v, hv, t, hat, hp, hh, ?_⟩
      apply selfTable_of_kept (h := pagingSwitch s.machine (s.tasks c).pml4Phys) hpage hf hpf hv hat
        hp hh
      intro va hcan
      rw [hmem, pagingSwitch_mem, ← translation_target, ← translation_target]
      exact hP.target va hcan

/-- A page of its own can be made read-only. -/
theorem mprotect_iff_sample : ∃ entries m c, GoodMap entries ∧
    Reach Spaces.step anyStep (.boot 0x110000 entries m) c ∧ 0x20F000 ∈ c.roots ∧
    ∃ s, s.machine = c.machine ∧ s.currentTask = some 0 ∧ (s.tasks 0).pml4Phys = 0x20F000 ∧
    ProtectsOnly s.machine.mem (sysMprotect s 0x40000000 4096 0).2.machine.mem 0x20F000
      0x40000000 4096 0 := by
  have hg : GoodMap [⟨0x200000, 0x10000, 1⟩] := ⟨by decide, List.pairwise_singleton _ _⟩
  obtain ⟨use, fl, ha⟩ := reach_apart hg oddSpace_reached
  have hroot : use 0x20F000 = .table 0x20F000 [] := ha.table (List.mem_singleton_self _) .root
  have ho : Owned use fl oddKernel.machine := ha.owned
  have hc : oddKernel.currentTask = some 0 := rfl
  have hlt : 0x40000000 + 4096 + 4095 < 2 ^ 64 := by decide
  have hiff := mprotect_iff ho hc hroot hlt 0
  refine ⟨_, _, oddSpace, hg, oddSpace_reached, List.mem_singleton_self _, oddKernel, rfl, rfl, rfl,
    hiff.1 ⟨?_, ?_, ?_⟩⟩
  · intro v hv
    have hpages : pageCursor (rangeStart 0x40000000) (rangeEnd 0x40000000 4096) = [0x40000000] := by
      simp [pageCursor, rangeStart, rangeEnd]
    rw [hpages, List.mem_singleton] at hv
    rw [hv]
    rintro ⟨t, hat, -, hh⟩
    have hflat : (thirdTable oddSpace.machine.mem 0x20F000 0x40000000).all
        (fun t => !huge (entry oddSpace.machine.mem t (pdtIndex 0x40000000))) = true := by
      decide +kernel
    have hat : thirdTable oddSpace.machine.mem 0x20F000 0x40000000 = some t :=
      thirdTable_iff.mpr hat
    have hh : huge (entry oddSpace.machine.mem t (pdtIndex 0x40000000)) = true := hh
    rw [hat, Option.all_some, hh] at hflat
    cases hflat
  · intro va _ _ _ hflag
    exact absurd hflag (by decide)
  · intro va hcan hout _ v hv hva
    exfalso
    rw [trail_four_iff] at hva
    obtain ⟨h1, -, h2⟩ := mem_pageCursor hv
    have hstart : rangeStart 0x40000000 = 0x40000000 := by decide
    have hend : rangeEnd 0x40000000 4096 = 0x40001000 := by simp [rangeEnd]
    simp only [canonical, Bool.or_eq_true, Bool.and_eq_true, decide_eq_true_eq] at hcan
    unfold InRange at hout
    omega

/-- Changing the rights of a page of the identity map makes it vanish. -/
theorem mprotect_drops_large_page : ∃ entries m c s, GoodMap entries ∧
    Reach Spaces.step anyStep (.boot 0x110000 entries m) c ∧
    s.machine = c.machine ∧ s.currentTask = some 0 ∧ (s.tasks 0).pml4Phys ∈ c.roots ∧
    (translation s.machine.mem (s.tasks 0).pml4Phys 0x800000).target = some 0x800000 ∧
    (translation (sysMprotect s 0x800000 4096 1).2.machine.mem
      (s.tasks 0).pml4Phys 0x800000).target = none := by
  refine ⟨_, _, oddSpace, oddKernel, ⟨by decide, List.pairwise_singleton _ _⟩, oddSpace_reached,
    rfl, rfl, List.mem_singleton_self _, ?_, ?_⟩
  · decide +kernel
  · decide +kernel

end Mukrn
