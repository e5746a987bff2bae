import Mukrn.Memory.Active
import Mukrn.Memory.Independence
import Mukrn.Table.Pids

/-! `unmap_page` and `munmap`. One entry is cleared at each step, so pages are only withdrawn; with
a page go those that share its leaf. Where the third-level entry is absent the word that is cleared
is no entry of a table. -/
namespace Mukrn
open ByteMemory PageTable LinkedStack Runs

/-- Bit 0 of an entry is cleared. -/
def clearEntry (h : Machine) (t i : ℕ) : Machine :=
  setEntry h t i (clearPresent (entry h.mem t i))

/-- The third-level table on the way of an address, if the levels above lead to one. -/
def thirdTable (m : Mem) (r virt : ℕ) : Option ℕ :=
  let pml4e := entry m r (pml4Index virt)
  let pdpte := entry m (frameOf pml4e) (pdptIndex virt)
  if present pml4e && present pdpte && !huge pdpte then some (frameOf pdpte) else none

section Step

variable {h : Machine} {m : Mem} {r t i virt va : ℕ}

theorem clearEntry_self : present (entry (clearEntry h t i).mem t i) = false := by
  have he : entry (clearEntry h t i).mem t i = clearPresent (entry h.mem t i) :=
    entry_store_self (clearPresent_lt _ (load64_lt _ _))
  rw [he]
  exact present_clearPresent _

/-- Clearing an absent entry changes nothing. -/
theorem clearEntry_absent (hp : present (entry h.mem t i) = false) : clearEntry h t i = h := by
  have he : clearPresent (entry h.mem t i) = entry h.mem t i := by
    simp only [present, beq_eq_false_iff_ne] at hp
    unfold clearPresent
    omega
  have hs : store64 h.mem (t + 8 * i) (entry h.mem t i) = h.mem := store_load ..
  rw [clearEntry, he, setEntry, hs]

theorem clearEntry_withdrawn (ht : t % 4096 = 0) (hi : i < 512) :
    Withdrawn h.mem (clearEntry h t i).mem := by
  intro t' i' ht' hi'
  by_cases hne : t' = t ∧ i' = i
  · rw [hne.1, hne.2]
    exact .inr clearEntry_self
  · exact .inl (entry_store_ne ht ht' hi hi' hne)

theorem thirdTable_iff : thirdTable m r virt = some t ↔ TableAt present m r (trail virt 2) t := by
  simp only [thirdTable, Option.ite_none_right_eq_some, Option.some.injEq, Bool.and_eq_true,
    Bool.not_eq_true']
  constructor
  · rintro ⟨⟨⟨h1, h2⟩, h3⟩, rfl⟩
    exact .next (.next .root (index_lt 3 virt) (by decide) h1 (.inl rfl)) (index_lt 2 virt)
      (by simp) h2 (.inr h3)
  · intro hat
    obtain ⟨t1, hat1, -, -, h2, h3, rfl⟩ := hat.link (p := [index 3 virt])
    obtain ⟨t0, hat0, -, -, h1, -, rfl⟩ := hat1.link (p := [])
    obtain rfl := hat0.unique .root
    exact ⟨⟨⟨h1, h2⟩, h3.resolve_left (by simp)⟩, rfl⟩

/-- The entry that is cleared: a leaf of 1 GiB or 2 MiB, present or not, or the word that the
third-level entry leads to. -/
theorem unmapPage_cases (h : Machine) (virt : ℕ) :
    (unmapPage h virt = h ∧ thirdTable h.mem h.pagingRoot virt = none ∧
      ∃ d t, d < 2 ∧ TableAt present h.mem h.pagingRoot (trail virt d) t ∧
        present (entry h.mem t (index (3 - d) virt)) = false) ∨
    (∃ t, TableAt present h.mem h.pagingRoot (trail virt 1) t ∧
      present (entry h.mem t (pdptIndex virt)) ∧ huge (entry h.mem t (pdptIndex virt)) ∧
      thirdTable h.mem h.pagingRoot virt = none ∧
      unmapPage h virt = clearEntry h t (pdptIndex virt)) ∨
    ∃ t, thirdTable h.mem h.pagingRoot virt = some t ∧
      unmapPage h virt =
        if huge (entry h.mem t (pdtIndex virt)) then clearEntry h t (pdtIndex virt)
        else clearEntry h (frameOf (entry h.mem t (pdtIndex virt))) (ptIndex virt) := by
  cases h1 : present (entry h.mem h.pagingRoot (pml4Index virt)) with
  | false =>
    refine .inl ⟨?_, ?_, 0, h.pagingRoot, by decide, .root, h1⟩
    · simp [unmapPage, h1]
    · simp [thirdTable, h1]
  | true =>
    have hat : TableAt present h.mem h.pagingRoot (trail virt 1)
        (frameOf (entry h.mem h.pagingRoot (pml4Index virt))) :=
      .next .root (index_lt 3 virt) (by decide) h1 (.inl rfl)
    cases h2 : present (entry h.mem (frameOf (entry h.mem h.pagingRoot (pml4Index virt)))
        (pdptIndex virt)) with
    | false =>
      refine .inl ⟨?_, ?_, 1, _, by decide, hat, h2⟩
      · simp [unmapPage, h1, h2]
      · simp [thirdTable, h1, h2]
    | true =>
      cases h3 : huge (entry h.mem (frameOf (entry h.mem h.pagingRoot (pml4Index virt)))
          (pdptIndex virt)) with
      | true =>
        refine .inr (.inl ⟨_, hat, h2, h3, ?_, ?_⟩)
        · simp [thirdTable, h1, h2, h3]
        · simp [unmapPage, h1, h2, h3, clearEntry]
      | false =>
        refine .inr (.inr ⟨_, by simp only [thirdTable, h1, h2, h3]; rfl, ?_⟩)
        simp only [unmapPage, h1, h2, h3, clearEntry, Bool.not_true, Bool.false_eq_true, if_false]

/-- A leaf entry on the way of an address without translation is absent. -/
theorem TableAt.leaf_absent {d : ℕ} (hd : d ≤ 3) (hat : TableAt present m r (trail virt d) t)
    (hl : d = 3 ∨ 0 < d ∧ huge (entry m t (index (3 - d) virt)))
    (hw : walk present m virt 3 r = none) : present (entry m t (index (3 - d) virt)) = false := by
  by_contra hp
  rw [Bool.not_eq_false] at hp
  rw [hat.walk_eq (l := 3 - d) (by rw [trail_length]) (by rw [trail_length]; omega)] at hw
  rcases hl with rfl | ⟨hpos, hh⟩
  · simp only [Nat.sub_self, walk] at hw hp
    rw [if_pos hp] at hw
    cases hw
  · obtain ⟨l, hl⟩ : ∃ l, 3 - d = l + 1 ∨ d = 3 := ⟨2 - d, by omega⟩
    rcases hl with hl | rfl
    · rw [hl] at hw hp hh
      have hlt : l < 2 := by omega
      simp [walk, hp, hh, hlt] at hw
    · simp only [Nat.sub_self, walk] at hw hp
      rw [if_pos hp] at hw
      cases hw

end Step

/-- An address in one of the table pages that a root leads to. -/
def InTable (m : Mem) (r a : ℕ) : Prop :=
  ∃ p t, TableAt present m r p t ∧ t ≤ a ∧ a < t + 4096

/-- The third-level entry of an address is absent and not marked as a leaf, and the word that is
taken for the entry below it has bit 0 set. -/
def straysAt (m : Mem) (r virt : ℕ) : Bool :=
  (thirdTable m r virt).any fun t =>
    let pde := entry m t (pdtIndex virt)
    !present pde && !huge pde && present (entry m (frameOf pde) (ptIndex virt))

/-- The active root maps its tables to themselves, and so it does with the page that an absent
third-level entry of the address leads to. -/
structure UnmapInPlace (h : Machine) (virt : ℕ) : Prop where
  tables : ∀ p t, TableAt present h.mem h.pagingRoot p t → Direct h t
  last : ∀ t, thirdTable h.mem h.pagingRoot virt = some t →
    present (entry h.mem t (pdtIndex virt)) = false →
    huge (entry h.mem t (pdtIndex virt)) = false → Direct h
    (frameOf (entry h.mem t (pdtIndex virt)))

/-- `unmap_page` clears the bit that it means to. -/
theorem unmapPage_active {h : Machine} {virt : ℕ} (hp : UnmapInPlace h virt) :
    Active.unmapPage h virt = some (unmapPage h virt) := by
  have h1 : Active.entry h h.pagingRoot (pml4Index virt) = some _ :=
    (hp.tables _ _ .root).entry (index_lt 3 virt)
  rw [Active.unmapPage, unmapPage, h1, Option.bind_some]
  cases hp1 : present (entry h.mem h.pagingRoot (pml4Index virt)) with
  | false => rfl
  | true =>
    have hat1 : TableAt present h.mem h.pagingRoot (trail virt 1)
        (frameOf (entry h.mem h.pagingRoot (pml4Index virt))) :=
      .next .root (index_lt 3 virt) (by decide) hp1 (.inl rfl)
    have hd1 := hp.tables _ _ hat1
    have h2 : Active.entry h (frameOf (entry h.mem h.pagingRoot (pml4Index virt)))
      (pdptIndex virt) = some _ := hd1.entry (index_lt 2 virt)
    simp only [Bool.not_true, Bool.false_eq_true, if_false]
    rw [h2, Option.bind_some]
    generalize he1 : frameOf (entry h.mem h.pagingRoot (pml4Index virt)) = t1 at hat1 hd1 ⊢
    cases hp2 : present (entry h.mem t1 (pdptIndex virt)) with
    | false => rfl
    | true =>
      cases hh2 : huge (entry h.mem t1 (pdptIndex virt)) with
      | true => exact hd1.setEntry (index_lt 2 virt) _
      | false =>
        have hat2 : TableAt present h.mem h.pagingRoot (trail virt 2)
            (frameOf (entry h.mem t1 (pdptIndex virt))) :=
          hat1.next (index_lt 2 virt) (by simp) hp2 (.inr hh2)
        have hd2 := hp.tables _ _ hat2
        have h3 : Active.entry h (frameOf (entry h.mem t1 (pdptIndex virt))) (pdtIndex virt) =
          some _ := hd2.entry (index_lt 1 virt)
        have hlast := hp.last _ (thirdTable_iff.mpr hat2)
        simp only [Bool.not_true, Bool.false_eq_true, if_false]
        rw [h3, Option.bind_some]
        generalize frameOf (entry h.mem t1 (pdptIndex virt)) = t2 at hat2 hd2 hlast ⊢
        cases hh3 : huge (entry h.mem t2 (pdtIndex virt)) with
        | true => exact hd2.setEntry (index_lt 1 virt) _
        | false =>
          have hd3 : Direct h (frameOf (entry h.mem t2 (pdtIndex virt))) := by
            cases hp3 : present (entry h.mem t2 (pdtIndex virt)) with
            | false => exact hlast hp3 hh3
            | true => exact hp.tables _ _ (hat2.next (index_lt 1 virt) (by simp) hp3 (.inr hh3))
          have h4 : Active.entry h (frameOf (entry h.mem t2 (pdtIndex virt))) (ptIndex virt) =
            some _ := hd3.entry (index_lt 0 virt)
          simp only [Bool.false_eq_true, if_false]
          rw [h4, Option.bind_some]
          exact hd3.setEntry (index_lt 0 virt) _

theorem clearEntry_inTable {h : Machine} {r t i : ℕ} {p : List ℕ}
    (hat : TableAt present h.mem r p t) (hi : i < 512) {a : ℕ}
    (ha : (clearEntry h t i).mem a ≠ h.mem a) : InTable h.mem r a := by
  refine ⟨p, t, hat, ?_⟩
  by_contra hout
  exact ha (setEntry_outside h _ hi (by omega))

/-- `unmap_page` writes only tables, and nothing where the address is not mapped, exactly when it
does not follow an absent third-level entry to an odd word. -/
theorem unmap_writes_tables_iff {h : Machine} {virt : ℕ} (hp : UnmapInPlace h virt) :
    ∃ h', Active.unmapPage h virt = some h' ∧
    (((∀ a, h'.mem a ≠ h.mem a → InTable h.mem h.pagingRoot a) ∧
      (walk present h.mem virt 3 h.pagingRoot = none → h'.mem = h.mem)) ↔
      straysAt h.mem h.pagingRoot virt = false) := by
  refine ⟨_, unmapPage_active hp, ?_⟩
  have hclear {d t : ℕ} (hd : d ≤ 3) (hat : TableAt present h.mem h.pagingRoot (trail virt d) t)
      (hl : d = 3 ∨ 0 < d ∧ huge (entry h.mem t (index (3 - d) virt))) :
      (∀ a, (clearEntry h t (index (3 - d) virt)).mem a ≠ h.mem a → InTable h.mem h.pagingRoot a) ∧
      (walk present h.mem virt 3 h.pagingRoot = none →
        (clearEntry h t (index (3 - d) virt)).mem = h.mem) := by
    refine ⟨fun a => clearEntry_inTable hat (index_lt _ virt), fun hw => ?_⟩
    rw [clearEntry_absent (TableAt.leaf_absent hd hat hl hw)]
  rcases unmapPage_cases h virt with
    ⟨heq, hnone, -⟩ | ⟨t, hat, -, hh, hnone, heq⟩ | ⟨t, hthird, heq⟩
  · rw [heq, straysAt, hnone]
    exact ⟨fun _ => rfl, fun _ => ⟨fun a ha => absurd rfl ha, fun _ => rfl⟩⟩
  · rw [heq, straysAt, hnone]
    exact ⟨fun _ => rfl, fun _ => hclear (d := 1) (by decide) hat (.inr ⟨by decide, hh⟩)⟩
  · have hat := thirdTable_iff.mp hthird
    have hstray : straysAt h.mem h.pagingRoot virt =
        (!present (entry h.mem t (pdtIndex virt)) && !huge (entry h.mem t (pdtIndex virt)) &&
          present (entry h.mem (frameOf (entry h.mem t (pdtIndex virt))) (ptIndex virt))) := by
      simp only [straysAt, hthird, Option.any_some]
    rw [heq, hstray]
    cases hh : huge (entry h.mem t (pdtIndex virt)) with
    | true =>
      rw [if_pos rfl]
      exact iff_of_true (hclear (d := 2) (by decide) hat (.inr ⟨by decide, hh⟩)) (by simp)
    | false =>
      simp only [Bool.false_eq_true, if_false, Bool.not_false, Bool.and_true]
      cases hp : present (entry h.mem t (pdtIndex virt)) with
      | true =>
        have hat3 : TableAt present h.mem h.pagingRoot (trail virt 3)
            (frameOf (entry h.mem t (pdtIndex virt))) :=
          hat.next (index_lt 1 virt) (by simp) hp (.inr hh)
        exact iff_of_true (hclear (d := 3) le_rfl hat3 (.inl rfl)) (by simp)
      | false =>
        have hw : walk present h.mem virt 3 h.pagingRoot = none :=
          hat.walk_absent (fun _ hp => hp) (l := 1) (by rw [trail_length]) rfl hp
        simp only [Bool.not_false, Bool.true_and]
        constructor
        · rintro ⟨-, hsame⟩
          have hcleared := clearEntry_self (h := h)
            (t := frameOf (entry h.mem t (pdtIndex virt))) (i := ptIndex virt)
          rwa [hsame hw] at hcleared
        · intro hodd
          rw [clearEntry_absent hodd]
          exact ⟨fun a ha => absurd rfl ha, fun _ => rfl⟩

/-- Unmapping a page of the identity map after the sample boot writes only tables. -/
theorem unmap_writes_tables_sample : ∃ x h', Reachable x ∧
    Active.unmapPage (pagingSwitch x.kernel.machine (x.kernel.tasks 0).pml4Phys) 0x300000 =
      some h' ∧
    ∀ a, h'.mem a ≠ x.kernel.machine.mem a →
      InTable x.kernel.machine.mem (x.kernel.tasks 0).pml4Phys a := by
  obtain ⟨x, r, use, fl, hk, -, ht, hs, -, -, hlow, hid⟩ := sample_direct
  have hn : x.kernel.numTasks = 1 := congrArg TaskTable.num ht
  have hroot := hs.root 0 (by omega)
  have hwalk : walk present x.kernel.machine.mem 0x300000 3 (x.kernel.tasks 0).pml4Phys =
      some 0x300000 := by
    have htr := hid 0x300000 (by decide)
    rwa [translate, if_pos (by decide)] at htr
  have hpres {t : ℕ} (hthird : thirdTable x.kernel.machine.mem (x.kernel.tasks 0).pml4Phys
      0x300000 = some t) : present (entry x.kernel.machine.mem t (pdtIndex 0x300000)) = true := by
    by_contra habs
    have hnone := (thirdTable_iff.mp hthird).walk_absent (fun _ hp => hp) (l := 1)
      (by rw [trail_length]) rfl (Bool.eq_false_iff.mpr habs)
    rw [hwalk] at hnone
    cases hnone
  have hp : UnmapInPlace (pagingSwitch x.kernel.machine (x.kernel.tasks 0).pml4Phys) 0x300000 := by
    refine ⟨fun p t hat o ho => hid _ ?_, fun t hthird habs => ?_⟩
    · have hlt := hlow t ((hs.owned.switch _).table_used hroot hat)
      omega
    · have habs : present (entry x.kernel.machine.mem t (pdtIndex 0x300000)) = false := habs
      rw [hpres hthird] at habs
      cases habs
  obtain ⟨h', heq, hiff⟩ := unmap_writes_tables_iff hp
  refine ⟨x, h', ⟨_, x, hk, .refl⟩, heq, (hiff.mpr ?_).1⟩
  cases hthird : thirdTable x.kernel.machine.mem (x.kernel.tasks 0).pml4Phys 0x300000 with
  | none => exact congrArg (Option.any _) hthird
  | some t =>
    refine (congrArg (Option.any _) hthird).trans ?_
    simp only [Option.any_some, pagingSwitch_mem, hpres hthird, Bool.not_true, Bool.false_and]

/-- 16 usable pages, and a memory in which only the first byte is not zero. -/
def oddBoot : Spaces :=
  .boot 0x110000 [⟨0x200000, 0x10000, 1⟩] fun a => if a = 0 then 1 else 0

/-- A copy of the template with one page mapped at 1 GiB. -/
def oddSpace : Spaces where
  machine := mapPage (pagingSwitch (pagingCloneKernel oddBoot.machine).2 0x20F000) 0x40000000
    0x300000 7
  roots := [0x20F000]

/-- The space evaluated: its root, and unmapping above the page. -/
private theorem oddSpace_eval : (pagingCloneKernel oddBoot.machine).1 = 0x20F000 ∧
    oddSpace.machine.pagingRoot = 0x20F000 ∧
    walk present oddSpace.machine.mem 0x40200000 3 oddSpace.machine.pagingRoot = none ∧
    (unmapPage oddSpace.machine 0x40200000).mem 0 ≠ oddSpace.machine.mem 0 := by
  decide +kernel

theorem oddSpace_reached : Reach Spaces.step anyStep oddBoot oddSpace := by
  have hclone := oddSpace_eval.1
  have hmem : 0x20F000 ∈ (0x20F000 :: oddBoot.roots) := List.mem_cons_self
  have h1 : Reach Spaces.step anyStep oddBoot _ :=
    .tail .refl trivial (Spaces.step_clone hclone (by decide))
  have h2 := h1.tail trivial (Spaces.step_switch hmem)
  exact h2.tail trivial (Spaces.step_map 0x40000000
    ⟨hmem, by decide, by decide, (by decide : MapFlags 7)⟩)

/-- No table of the sample space is at address 0. -/
private theorem oddSpace_zero : ¬ InTable oddSpace.machine.mem 0x20F000 0 := by
  have hg : GoodMap [⟨0x200000, 0x10000, 1⟩] := ⟨by decide, List.pairwise_singleton _ _⟩
  obtain ⟨use, fl, ha⟩ := reach_apart hg oddSpace_reached
  rintro ⟨p, t, hat, hle, -⟩
  have htable := ha.table (List.mem_singleton_self _) hat
  have hpos := (ha.owned.page t (by rw [htable]; simp)).2.1
  omega

/-- After one page has been mapped at 1 GiB, unmapping the empty region above it clears a bit of
the first word of memory. -/
theorem unmap_clears_low_word : ∃ entries m c, GoodMap entries ∧
    Reach Spaces.step anyStep (.boot 0x110000 entries m) c ∧
    c.machine.pagingRoot ∈ c.roots ∧
    walk present c.machine.mem 0x40200000 3 c.machine.pagingRoot = none ∧
    (unmapPage c.machine 0x40200000).mem 0 ≠ c.machine.mem 0 ∧
    ¬ InTable c.machine.mem c.machine.pagingRoot 0 := by
  obtain ⟨-, hroot, hwalk, hcleared⟩ := oddSpace_eval
  refine ⟨_, _, oddSpace, ⟨by decide, List.pairwise_singleton _ _⟩, oddSpace_reached, ?_, hwalk,
    hcleared, ?_⟩
  · rw [hroot]
    exact List.mem_singleton_self _
  · rw [hroot]
    exact oddSpace_zero

/-- The pages whose leaf is the entry that `unmap_page` clears for `virt`. -/
def SharesLeaf (m : Mem) (r virt va : ℕ) : Prop :=
  trail va 4 = trail virt 4 ∨ trail va 3 = trail virt 3 ∧ HugeAt m r virt

/-- An address that is translated after a withdrawal has a 2 MiB leaf if it had one. -/
theorem Withdrawn.hugeAt {m m' : Mem} {r virt va pa : ℕ} (h : Withdrawn m m') (hr : r % 4096 = 0)
    (hw : walk present m' va 3 r = some pa) (hva : trail va 3 = trail virt 3)
    (hh : HugeAt m r virt) : HugeAt m' r virt := by
  obtain ⟨t, hat, hp, hh⟩ := hh
  obtain ⟨htr, hidx⟩ := trail_last hva
  have hlen := trail_length virt 2
  have hway : trail va (trail virt 2).length = trail virt 2 := by
    rw [hlen]
    exact htr
  have hat' := h.tableAt hr hw hat hway
  have hidx : index 1 va = index 1 virt := hidx
  have hsame : entry m' t (pdtIndex virt) = entry m t (pdtIndex virt) := by
    rcases h t _ (TableAt.aligned hr hat) (index_lt 1 virt) with hs | habs
    · exact hs
    · have hnone := hat'.walk_absent (fun _ hp => hp) hway (l := 1) (by rw [hlen])
        (by rw [hidx]; exact habs)
      rw [hnone] at hw
      cases hw
  refine ⟨t, hat', ?_⟩
  rw [hsame]
  exact ⟨hp, hh⟩

section Loop

variable {h : Machine} {virt va : ℕ} (hr : h.pagingRoot % 4096 = 0)
include hr

theorem unmapPage_withdrawn (virt : ℕ) : Withdrawn h.mem (unmapPage h virt).mem := by
  rcases unmapPage_cases h virt with ⟨heq, -⟩ | ⟨t, hat, -, -, -, heq⟩ | ⟨t, hthird, heq⟩
  · rw [heq]
    exact .refl _
  · rw [heq]
    exact clearEntry_withdrawn (TableAt.aligned hr hat) (index_lt 2 virt)
  · rw [heq]
    split
    · exact clearEntry_withdrawn (TableAt.aligned hr (thirdTable_iff.mp hthird)) (index_lt 1 virt)
    · exact clearEntry_withdrawn (frameOf_mod _) (index_lt 0 virt)

/-- The page is gone, and with it all that share its leaf. -/
theorem unmapPage_gone (hva : SharesLeaf h.mem h.pagingRoot virt va) :
    walk present (unmapPage h virt).mem va 3 h.pagingRoot = none := by
  by_contra hsome
  obtain ⟨pa, hw⟩ := Option.ne_none_iff_exists'.mp hsome
  have hW := unmapPage_withdrawn hr virt
  have hold : walk present h.mem va 3 h.pagingRoot = some pa :=
    (hW.walk_eq hr hw present).symm.trans hw
  have h3 : trail va 3 = trail virt 3 := hva.elim (fun h4 => (trail_last h4).1) fun h3 => h3.1
  have h2 := trail_last h3
  have h1 := trail_last h2.1
  -- on the way of `va` no entry is absent, neither before nor after
  have habs {m : Mem} {d t : ℕ} (hsome : walk present m va 3 h.pagingRoot = some pa) (hd : d ≤ 3)
      (htr : trail va d = trail virt d) (hidx : index (3 - d) va = index (3 - d) virt)
      (hat : TableAt present m h.pagingRoot (trail virt d) t) :
      present (entry m t (index (3 - d) virt)) = true := by
    by_contra hp
    have hlen := trail_length virt d
    have hway : trail va (trail virt d).length = trail virt d := by
      rw [hlen]
      exact htr
    have hnone := hat.walk_absent (fun _ hp => hp) hway (l := 3 - d) (by omega)
      (by rw [hidx]; simpa using hp)
    rw [hnone] at hsome
    cases hsome
  have hcleared {d t : ℕ} (hd : d ≤ 3) (htr : trail va d = trail virt d)
      (hidx : index (3 - d) va = index (3 - d) virt)
      (hat : TableAt present h.mem h.pagingRoot (trail virt d) t)
      (heq : unmapPage h virt = clearEntry h t (index (3 - d) virt)) : False := by
    have hlen := trail_length virt d
    have hat' := hW.tableAt hr hw hat (by rw [hlen]; exact htr)
    have hp := habs hw hd htr hidx hat'
    rw [heq, clearEntry_self] at hp
    cases hp
  rcases unmapPage_cases h virt with
    ⟨-, -, d, t, hd, hat, hp⟩ | ⟨t, hat, -, -, -, heq⟩ | ⟨t, hthird, heq⟩
  · rcases (by omega : d = 0 ∨ d = 1) with rfl | rfl
    · rw [habs hold (by decide) (trail_last h1.1).1 (trail_last h1.1).2 hat] at hp
      cases hp
    · rw [habs hold (by decide) h1.1 h1.2 hat] at hp
      cases hp
  · exact hcleared (d := 1) (by decide) h1.1 h1.2 hat heq
  · have hat := thirdTable_iff.mp hthird
    split at heq
    · exact hcleared (d := 2) (by decide) h2.1 h2.2 hat heq
    next hh =>
      have hp := habs hold (by decide) h2.1 h2.2 hat
      rcases hva with h4 | ⟨-, t', hat', -, hh'⟩
      · have hat3 : TableAt present h.mem h.pagingRoot (trail virt 3) _ :=
          hat.next (index_lt 1 virt) (by simp) hp (.inr (Bool.eq_false_iff.mpr hh))
        exact hcleared (d := 3) le_rfl h3 (trail_last h4).2 hat3 heq
      · rw [hat'.unique hat] at hh'
        exact hh hh'

theorem foldl_unmapPage_withdrawn (vs : List ℕ) :
    Withdrawn h.mem (vs.foldl unmapPage h).mem := by
  induction vs generalizing h with
  | nil => exact .refl _
  | cons v vs ih =>
    rw [List.foldl_cons]
    have hr' : (unmapPage h v).pagingRoot % 4096 = 0 := by
      rw [unmapPage_root]
      exact hr
    exact (unmapPage_withdrawn hr v).trans (ih hr')

/-- What goes in one step of the loop does not come back. -/
theorem foldl_unmapPage_gone {vs : List ℕ} {v : ℕ} (hv : v ∈ vs)
    (hva : SharesLeaf h.mem h.pagingRoot v va) :
    walk present (vs.foldl unmapPage h).mem va 3 h.pagingRoot = none := by
  have hgone {h' : Machine} (hroot : h'.pagingRoot = h.pagingRoot) (w : ℕ)
      (hw : walk present h'.mem va 3 h.pagingRoot = none) :
      walk present (unmapPage h' w).mem va 3 h.pagingRoot = none :=
    (unmapPage_withdrawn (by rw [hroot]; exact hr) w).walk_none hr hw
  -- until then the address is not translated, or its leaf is the one it had
  refine foldl_of_mem (s := h) (f := unmapPage) (P := fun h' => h'.pagingRoot = h.pagingRoot ∧
      (walk present h'.mem va 3 h.pagingRoot = none ∨ SharesLeaf h'.mem h.pagingRoot v va))
    (Q := fun h' => walk present h'.mem va 3 h.pagingRoot = none) hv ⟨rfl, .inr hva⟩ ?_ ?_ ?_
  · rintro h' w ⟨hroot, hP⟩
    refine ⟨(unmapPage_root h' w).trans hroot, ?_⟩
    rcases hP with hw | hva
    · exact .inl (hgone hroot w hw)
    · cases hw : walk present (unmapPage h' w).mem va 3 h.pagingRoot with
      | none => exact .inl rfl
      | some pa =>
        have hW := unmapPage_withdrawn (h := h') (by rw [hroot]; exact hr) w
        exact .inr (hva.imp_right fun hs => ⟨hs.1, Withdrawn.hugeAt hW hr hw hs.1 hs.2⟩)
  · rintro h' ⟨hroot, hw | hva⟩
    · exact hgone hroot v hw
    · rw [← hroot] at hva ⊢
      exact unmapPage_gone (by rw [hroot]; exact hr) hva
  · rintro h' w ⟨hroot, -⟩ hw
    exact hgone hroot w hw

end Loop

section Kept

variable {sh : Shape} {use : ℕ → Use} {fl : List ℕ} {h : Machine} {virt va : ℕ}

/-- What `unmap_page` writes: a leaf on the way of the address, or no table at all. -/
theorem Linked.unmapPage (hL : Linked sh h.mem) (hr : sh h.pagingRoot = some (h.pagingRoot, []))
    (virt : ℕ)
    (hvac : ∀ t, thirdTable h.mem h.pagingRoot virt = some t →
      present (entry h.mem t (pdtIndex virt)) = false →
      huge (entry h.mem t (pdtIndex virt)) = false →
      sh (frameOf (entry h.mem t (pdtIndex virt))) = none) :
    (∀ t x, sh t = some x → ∀ a, t ≤ a → a < t + 4096 → (unmapPage h virt).mem a = h.mem a) ∨
    ∃ d t, TableAt present h.mem h.pagingRoot (trail virt d) t ∧
      (d = 2 ∧ present (entry h.mem t (pdtIndex virt)) ∧ huge (entry h.mem t (pdtIndex virt)) ∨
        d = 3) ∧ unmapPage h virt = clearEntry h t (index (3 - d) virt) := by
  rcases unmapPage_cases h virt with ⟨heq, -⟩ | ⟨t, hat, hp, hh, -, -⟩ | ⟨t, hthird, heq⟩
  · left
    rw [heq]
    exact fun _ _ _ _ _ _ => rfl
  · have hst := hL.tableAt access_present.present hr hat
    have hflat := hL.flat _ _ _ hst (trail_length virt 1) _ (index_lt 2 virt) hp
    exact absurd hh (Bool.eq_false_iff.mp hflat)
  · have hat := thirdTable_iff.mp hthird
    rw [heq]
    cases hp : present (entry h.mem t (pdtIndex virt)) with
    | true =>
      right
      split
      next hh => exact ⟨2, t, hat, .inl ⟨rfl, hp, hh⟩, rfl⟩
      next hh =>
        have hat3 : TableAt present h.mem h.pagingRoot (trail virt 3) _ :=
          hat.next (index_lt 1 virt) (by simp) hp (.inr (Bool.eq_false_iff.mpr hh))
        exact ⟨3, _, hat3, .inr rfl, rfl⟩
    | false =>
      left
      split
      · rw [clearEntry_absent hp]
        exact fun _ _ _ _ _ _ => rfl
      next hh =>
        have hno := hvac t hthird hp (Bool.eq_false_iff.mpr hh)
        intro t' x ht' a h1 h2
        have ht0 := hL.aligned t' x.1 x.2 ht'
        have hf0 := frameOf_mod (entry h.mem t (pdtIndex virt))
        have hne : t' ≠ frameOf (entry h.mem t (pdtIndex virt)) := by
          rintro rfl
          rw [hno] at ht'
          cases ht'
        exact setEntry_outside h _ (index_lt 0 virt) (by omega)

/-- Only the pages that share the leaf are affected. -/
theorem Linked.unmapPage_kept (hL : Linked sh h.mem)
    (hr : sh h.pagingRoot = some (h.pagingRoot, [])) (virt : ℕ)
    (hvac : ∀ t, thirdTable h.mem h.pagingRoot virt = some t →
      present (entry h.mem t (pdtIndex virt)) = false →
      huge (entry h.mem t (pdtIndex virt)) = false →
      sh (frameOf (entry h.mem t (pdtIndex virt))) = none) :
    WalksAgree sh (fun r va => r = h.pagingRoot ∧ SharesLeaf h.mem h.pagingRoot virt va)
      h.mem (Mukrn.unmapPage h virt).mem := by
  rcases Linked.unmapPage hL hr virt hvac with hsame | ⟨d, t, hat, hd, heq⟩
  · exact fun ok ha r hr' va _ => hL.walk_congr ha.present
      (fun t p ht i hi => entry_of_page (hsame t _ ht) hi) hr' rfl
  · have hst := hL.tableAt access_present.present hr hat
    have hag (t' r' : ℕ) (p' : List ℕ) (ht' : sh t' = some (r', p')) (i' : ℕ) (hi' : i' < 512)
        (hne : ¬ (t' = t ∧ i' = index (3 - d) virt)) :
        entry (clearEntry h t (index (3 - d) virt)).mem t' i' = entry h.mem t' i' :=
      entry_store_ne (hL.aligned _ _ _ hst) (hL.aligned _ _ _ ht') (index_lt _ virt) hi' hne
    have hw := hL.walks_set hst (by rw [trail_length]; omega) hag
    rw [trail_length, ← trail_succ] at hw
    rw [heq]
    refine hw.mono fun r va hva => ⟨hva.1, ?_⟩
    rcases hd with ⟨rfl, hp, hh⟩ | rfl
    · exact .inr ⟨hva.2, t, hat, hp, hh⟩
    · exact .inl hva.2

/-- A vacant entry has no address, and there is no table at address 0. -/
theorem Owned.vacant (ho : Owned use fl h) (hr : use h.pagingRoot = .table h.pagingRoot [])
    {t : ℕ} (hthird : thirdTable h.mem h.pagingRoot virt = some t)
    (hp : present (entry h.mem t (pdtIndex virt)) = false)
    (hh : huge (entry h.mem t (pdtIndex virt)) = false) :
    frameOf (entry h.mem t (pdtIndex virt)) = 0 := by
  have hst := ho.tree.linked.tableAt access_present.present (shape_eq_some.mpr hr)
    (thirdTable_iff.mp hthird)
  exact (ho.tree.entries _ _ _ hst (by simp) _ (index_lt 1 virt)).vacant (trail_length virt 2) hp hh

theorem Owned.zero_no_table (ho : Owned use fl h) : shape use 0 = none := by
  rw [Option.eq_none_iff_forall_ne_some]
  intro x hx
  have h0 := (ho.page 0 (by rw [shape_eq_some.mp hx]; simp)).2.1
  omega

theorem unmapPage_tables (ho : Owned use fl h) (hr : use h.pagingRoot = .table h.pagingRoot [])
    (virt : ℕ) :
    (∀ t r p, use t = .table r p → ∀ a, t ≤ a → a < t + 4096 →
      (unmapPage h virt).mem a = h.mem a) ∨
    ∃ d t, TableAt present h.mem h.pagingRoot (trail virt d) t ∧
      (d = 2 ∧ present (entry h.mem t (pdtIndex virt)) ∧ huge (entry h.mem t (pdtIndex virt)) ∨
        d = 3) ∧ unmapPage h virt = clearEntry h t (index (3 - d) virt) := by
  refine (Linked.unmapPage ho.tree.linked (shape_eq_some.mpr hr) virt
    fun t hthird hp hh => ?_).imp_left
    fun hsame t r p ht => hsame t _ (shape_eq_some.mpr ht)
  rw [ho.vacant hr hthird hp hh]
  exact ho.zero_no_table

theorem unmapPage_kept (ho : Owned use fl h) (hr : use h.pagingRoot = .table h.pagingRoot [])
    (virt : ℕ) :
    WalksAgree (shape use) (fun r va => r = h.pagingRoot ∧ SharesLeaf h.mem h.pagingRoot virt va)
      h.mem (unmapPage h virt).mem := by
  refine Linked.unmapPage_kept ho.tree.linked (shape_eq_some.mpr hr) virt fun t hthird hp hh => ?_
  rw [ho.vacant hr hthird hp hh]
  exact ho.zero_no_table

theorem SharesLeaf.of_withdrawn {m m' : Mem} {r : ℕ} (hW : Withdrawn m m') (hr : r % 4096 = 0)
    (hs : SharesLeaf m' r virt va) : SharesLeaf m r virt va := by
  refine hs.imp_right ?_
  rintro ⟨h3, t, hat, hp, hh⟩
  refine ⟨h3, t, hW.tableAt_of hr hat, ?_⟩
  rcases hW t _ (TableAt.aligned hr hat) (index_lt 1 virt) with hsame | habs
  · have hsame : entry m' t (pdtIndex virt) = entry m t (pdtIndex virt) := hsame
    rw [← hsame]
    exact ⟨hp, hh⟩
  · have habs : present (entry m' t (pdtIndex virt)) = false := habs
    rw [habs] at hp
    cases hp

/-- The tables of the active root are in place and stay there while the pages are unmapped, and so
does page 0, which the vacant third-level entries lead to. -/
structure UnmapsInPlace (h : Machine) (vs : List ℕ) : Prop where
  tree : PageTree h.mem h.pagingRoot
  tables : ∀ p t, TableAt present h.mem h.pagingRoot p t → t ≠ 0 ∧ Direct h t
  zero : Direct h 0
  vacant : ∀ p t, TableAt present h.mem h.pagingRoot p t → p.length = 2 → ∀ i < 512,
    present (entry h.mem t i) = false → huge (entry h.mem t i) = false →
    frameOf (entry h.mem t i) = 0
  later : ∀ v ∈ vs, ∀ t, t = 0 ∨ (∃ p, TableAt present h.mem h.pagingRoot p t) →
    ¬ SharesLeaf h.mem h.pagingRoot v t

theorem SharesLeaf.page {m : Mem} {r t o : ℕ} (ht : t % 4096 = 0) (ho : o < 4096) :
    SharesLeaf m r virt (t + o) ↔ SharesLeaf m r virt t := by
  have hpage : (t + o) / 4096 = t / 4096 := by omega
  rw [SharesLeaf, SharesLeaf, trail_page hpage, trail_page hpage]

/-- One page is unmapped; the others can be unmapped likewise. -/
theorem UnmapsInPlace.step {v : ℕ} {vs : List ℕ} (hp : UnmapsInPlace h (v :: vs)) :
    Active.unmapPage h v = some (unmapPage h v) ∧ UnmapsInPlace (unmapPage h v) vs := by
  have hr := hp.tree.aligned
  have hL := hp.tree.linked
  have hsr := hp.tree.shape_eq .root
  have hroot := unmapPage_root h v
  have hW := unmapPage_withdrawn hr v
  have hold {p : List ℕ} {t : ℕ}
      (ht : TableAt present (unmapPage h v).mem (unmapPage h v).pagingRoot p t) :
      TableAt present h.mem h.pagingRoot p t := by
    rw [hroot] at ht
    exact hW.tableAt_of hr ht
  have hvac (t : ℕ) (hthird : thirdTable h.mem h.pagingRoot v = some t) :=
    hp.vacant _ t (thirdTable_iff.mp hthird) (trail_length v 2) _ (index_lt 1 v)
  have hzero : treeShape h.mem h.pagingRoot 0 = none := by
    rw [Option.eq_none_iff_forall_ne_some]
    intro x hx
    exact (hp.tables _ _ (treeShape_tableAt hx).2).1 rfl
  have hwalks := Linked.unmapPage_kept hL hsr v fun t hthird habs hh => by
    have h0 : frameOf (entry h.mem t (pdtIndex v)) = 0 := hvac t hthird habs hh
    rw [h0]
    exact hzero
  have hkeep {t : ℕ} (hd : Direct h t) (ht0 : t % 4096 = 0)
      (ht : t = 0 ∨ ∃ p, TableAt present h.mem h.pagingRoot p t) : Direct (unmapPage h v) t :=
    hd.agree hwalks hsr hroot fun o ho hn =>
      hp.later v List.mem_cons_self t ht ((SharesLeaf.page ht0 ho).mp hn.2)
  refine ⟨unmapPage_active ⟨fun p t ht => (hp.tables p t ht).2, fun t hthird habs hh => ?_⟩,
    ⟨by rw [hroot]; exact hr, fun p q t h1 h2 => hp.tree.distinct p q t (hold h1) (hold h2),
      fun i t ht k hk hpres => ?_⟩, fun p t ht => ?_, hkeep hp.zero rfl (.inl rfl),
    fun p t ht h2 i hi habs hh => ?_, fun w hw t ht hs => ?_⟩
  · have h0 : frameOf (entry h.mem t (pdtIndex v)) = 0 := hvac t hthird habs hh
    rw [h0]
    exact hp.zero
  · rcases hW t k (TableAt.aligned hr (hold ht)) hk with hsame | habs
    · rw [hsame] at hpres ⊢
      exact hp.tree.flat i t (hold ht) k hk hpres
    · rw [habs] at hpres
      cases hpres
  · have hat := hold ht
    exact ⟨(hp.tables p t hat).1, hkeep (hp.tables p t hat).2 (TableAt.aligned hr hat)
      (.inr ⟨p, hat⟩)⟩
  · -- only a large leaf is cleared in a third-level table, and it keeps its size bit
    have hat := hold ht
    have hst := hp.tree.shape_eq hat
    rcases Linked.unmapPage hL hsr v (fun t hthird habs hh => by
        have h0 : frameOf (entry h.mem t (pdtIndex v)) = 0 := hvac t hthird habs hh
        rw [h0]
        exact hzero) with hsame | ⟨d, t', hat', hd, heq⟩
    · rw [entry_of_page (hsame t _ hst) hi] at habs hh ⊢
      exact hp.vacant p t hat h2 i hi habs hh
    · by_cases hne : t = t' ∧ i = index (3 - d) v
      · obtain ⟨rfl, rfl⟩ := hne
        have hd2 : d = 2 := by
          have hlen := congrArg List.length (hp.tree.distinct _ _ _ hat hat')
          rw [trail_length] at hlen
          omega
        subst hd2
        have hbit := (hd.resolve_right (by decide)).2.2
        have hbit : huge (entry h.mem t (index 1 v)) = true := hbit
        have he : entry (clearEntry h t (index 1 v)).mem t (index 1 v) =
            clearPresent (entry h.mem t (index 1 v)) :=
          entry_store_self (clearPresent_lt _ (load64_lt _ _))
        rw [heq, he] at hh
        simp only [huge, clearPresent, beq_eq_false_iff_ne, beq_iff_eq] at hh hbit
        omega
      · have hsame : entry (clearEntry h t' (index (3 - d) v)).mem t i = entry h.mem t i :=
          entry_store_ne (TableAt.aligned hr hat') (TableAt.aligned hr hat) (index_lt _ v) hi hne
        rw [heq, hsame] at habs hh ⊢
        exact hp.vacant p t hat h2 i hi habs hh
  · rw [hroot] at hs
    exact hp.later w (List.mem_cons_of_mem v hw) t (ht.imp_right fun ht => ht.imp fun p => hold)
      (hs.of_withdrawn hW hr)

/-- The loop of `munmap`. -/
theorem foldlM_unmapPage_active {vs : List ℕ} (hp : UnmapsInPlace h vs) :
    vs.foldlM Active.unmapPage h = some (vs.foldl unmapPage h) := by
  induction vs generalizing h with
  | nil => rfl
  | cons v vs ih =>
    obtain ⟨heq, hp'⟩ := hp.step
    rw [List.foldlM_cons, heq, List.foldl_cons]
    exact ih hp'

end Kept

/-- The addresses of the pages that a call for `size` bytes at `virt` is about. -/
def InRange (virt size va : ℕ) : Prop :=
  virt / 4096 * 4096 ≤ va ∧ va < (virt + size + 4095) / 4096 * 4096

/-- Without wrap-around the loop meets the page of every address of the range. -/
theorem InRange.page {virt size va : ℕ} (h : InRange virt size va)
    (hlt : virt + size + 4095 < 2 ^ 64) :
    va / 4096 * 4096 ∈ pageCursor (rangeStart virt) (rangeEnd virt size) := by
  obtain ⟨h1, h2⟩ := h
  apply mem_pageCursor_of
  · unfold rangeStart
    omega
  · unfold rangeStart
    omega
  · rw [rangeEnd, Nat.mod_eq_of_lt hlt]
    omega

section Munmap

variable {s : Kernel} {c virt size : ℕ} (hc : s.currentTask = some c)
include hc

theorem sysMunmap_mem (virt size : ℕ) : (sysMunmap s virt size).2.machine.mem =
    ((pageCursor (rangeStart virt) (rangeEnd virt size)).foldl unmapPage
      (pagingSwitch s.machine (s.tasks c).pml4Phys)).mem := by
  simp only [sysMunmap, hc, underRoot, pagingSwitch_mem]

theorem sysMunmap_gone (hr : (s.tasks c).pml4Phys % 4096 = 0) (hlt : virt + size + 4095 < 2 ^ 64)
    {va : ℕ} (hva : InRange virt size va) :
    (translation (sysMunmap s virt size).2.machine.mem (s.tasks c).pml4Phys va).target = none := by
  rw [sysMunmap_mem hc, translation_target]
  exact foldl_unmapPage_gone (h := pagingSwitch s.machine (s.tasks c).pml4Phys) hr (hva.page hlt)
    (.inl (trail_page (by omega) 4))

theorem sysMunmap_active (hp : UnmapsInPlace (pagingSwitch s.machine (s.tasks c).pml4Phys)
      (pageCursor (rangeStart virt) (rangeEnd virt size))) :
    Active.sysMunmap s virt size = some (sysMunmap s virt size) := by
  simp only [Active.sysMunmap, sysMunmap, hc, Active.underRoot, underRoot,
    foldlM_unmapPage_active hp, Option.map_some]

/-- No page of the range is left, and what is left is as it was. -/
theorem munmap_withdraws (hp : UnmapsInPlace (pagingSwitch s.machine (s.tasks c).pml4Phys)
      (pageCursor (rangeStart virt) (rangeEnd virt size)))
    (hlt : virt + size + 4095 < 2 ^ 64) :
    ∃ s', Active.sysMunmap s virt size = some (0, s') ∧
    (∀ va, virt / 4096 * 4096 ≤ va → va < (virt + size + 4095) / 4096 * 4096 →
      (translation s'.machine.mem (s.tasks c).pml4Phys va).target = none) ∧
    ∀ va, (translation s'.machine.mem (s.tasks c).pml4Phys va).target ≠ none →
      translation s'.machine.mem (s.tasks c).pml4Phys va =
        translation s.machine.mem (s.tasks c).pml4Phys va := by
  have hr : (s.tasks c).pml4Phys % 4096 = 0 := hp.tree.aligned
  have hzero : sysMunmap s virt size = (0, (sysMunmap s virt size).2) := by
    simp only [sysMunmap, hc]
  refine ⟨_, (sysMunmap_active hc hp).trans (congrArg some hzero),
    fun va h1 h2 => sysMunmap_gone hc hr hlt ⟨h1, h2⟩, fun va hne => ?_⟩
  rw [sysMunmap_mem hc] at hne ⊢
  have hW := foldl_unmapPage_withdrawn (h := pagingSwitch s.machine (s.tasks c).pml4Phys) hr
    (pageCursor (rangeStart virt) (rangeEnd virt size))
  obtain ⟨pa, hw⟩ := Option.ne_none_iff_exists'.mp hne
  rw [translation_target] at hw
  simp only [translation, hW.walk_eq hr hw, pagingSwitch_mem]

end Munmap

/-- Above the sample boot's memory everything can be unmapped. -/
theorem munmap_withdraws_sample : ∃ x s', Reachable x ∧ x.kernel.currentTask = some 0 ∧
    Active.sysMunmap x.kernel 0x800000 4096 = some (0, s') ∧
    (∀ va, 0x800000 ≤ va → va < 0x801000 →
      (translation s'.machine.mem (x.kernel.tasks 0).pml4Phys va).target = none) := by
  obtain ⟨x, r, use, fl, hk, -, ht, hs, -, -, hlow, hid⟩ := sample_direct
  have hc : x.kernel.currentTask = some 0 := congrArg TaskTable.current ht
  have hn : x.kernel.numTasks = 1 := congrArg TaskTable.num ht
  have hroot := hs.root 0 (by omega)
  have ho := hs.owned.switch (x.kernel.tasks 0).pml4Phys
  have hp : UnmapsInPlace (pagingSwitch x.kernel.machine (x.kernel.tasks 0).pml4Phys)
      (pageCursor (rangeStart 0x800000) (rangeEnd 0x800000 4096)) := by
    refine ⟨ho.pageTree hroot, fun p t hat => ⟨?_, fun o ho' => hid _ ?_⟩,
      fun o ho' => hid _ (by omega), fun p t hat hlen i hi => ?_, fun v hv t hat hshare => ?_⟩
    · exact (ho.page t (ho.table_used hroot hat)).2.1.ne'
    · have hlt := hlow t (ho.table_used hroot hat)
      omega
    · have hst := ho.tree.linked.tableAt access_present.present (shape_eq_some.mpr hroot) hat
      exact (ho.tree.entries _ _ _ hst (by omega) i hi).vacant hlen
    · have hlt : t < 0x150000 := by
        rcases hat with rfl | ⟨p, hat⟩
        · decide
        · exact hlow t (ho.table_used hroot hat)
      have hregion : trail t 3 = trail v 3 :=
        hshare.elim (fun h4 => (trail_last h4).1) fun h3 => h3.1
      rw [trail_three_iff] at hregion
      obtain ⟨h1, -, h2⟩ := mem_pageCursor hv
      have hstart : rangeStart 0x800000 = 0x800000 := by decide
      have hend : rangeEnd 0x800000 4096 = 0x801000 := by simp [rangeEnd]
      omega
  obtain ⟨s', heq, hgone, -⟩ := munmap_withdraws hc hp (by decide)
  exact ⟨x, s', ⟨_, x, hk, .refl⟩, hc, heq, hgone⟩

/-- A copy of the template in which the address of its own page directory leads to another frame. -/
def veiledSpace : Spaces where
  machine := mapPage (pagingSwitch (pagingCloneKernel oddBoot.machine).2 0x20F000) 0x20D000
    0x300000 7
  roots := [0x20F000]

theorem veiledSpace_reached : Reach Spaces.step anyStep oddBoot veiledSpace := by
  have hmem : 0x20F000 ∈ (0x20F000 :: oddBoot.roots) := List.mem_cons_self
  have h1 : Reach Spaces.step anyStep oddBoot _ :=
    .tail .refl trivial (Spaces.step_clone oddSpace_eval.1 (by decide))
  have h2 := h1.tail trivial (Spaces.step_switch hmem)
  exact h2.tail trivial (Spaces.step_map 0x20D000
    ⟨hmem, by decide, by decide, (by decide : MapFlags 7)⟩)

/-- A kernel with one task, in that space. -/
def veiledKernel : Kernel :=
  { initialKernel veiledSpace.machine with
    tasks := fun _ => { zeroTask with pml4Phys := 0x20F000 }
    currentTask := some 0
    numTasks := 1 }

/-- The space evaluated: its root, and the start of the free list. -/
theorem veiledSpace_eval : veiledSpace.machine.pagingRoot = 0x20F000 ∧
    veiledSpace.machine.freeStack ≠ 0 ∧
    load64 veiledSpace.machine.mem veiledSpace.machine.freeStack ≠ 0 ∧
    load64 veiledSpace.machine.mem (load64 veiledSpace.machine.mem
      veiledSpace.machine.freeStack) ≠ 0 := by decide +kernel

/-- The tables of the veiled space are as well formed as any. -/
theorem veiledSpace_tree : ∃ fl, PageTree veiledSpace.machine.mem 0x20F000 ∧
    FreePages fl veiledSpace.machine ∧ 3 ≤ fl.length ∧
    ¬ InTable veiledSpace.machine.mem 0x20F000 0 := by
  have hg : GoodMap [⟨0x200000, 0x10000, 1⟩] := ⟨by decide, List.pairwise_singleton _ _⟩
  obtain ⟨use, fl, ha⟩ := reach_apart hg veiledSpace_reached
  have hroot : use 0x20F000 = .table 0x20F000 [] := ha.table (List.mem_singleton_self _) .root
  obtain ⟨hactive, hfirst, hsecond, hthird⟩ := veiledSpace_eval
  rw [← hactive] at hroot
  have ho := ha.owned
  have htree := ho.pageTree hroot
  have hfree := ho.freePages hroot
  rw [hactive] at htree
  refine ⟨fl, htree, hfree, ?_, ?_⟩
  · obtain ⟨l, rfl, hl⟩ := ho.chain.exists_cons hfirst
    obtain ⟨l', rfl, hl'⟩ := hl.exists_cons hsecond
    obtain ⟨l'', rfl, -⟩ := hl'.exists_cons hthird
    simp
  · rintro ⟨p, t, hat, hle, -⟩
    have htable := ha.table (List.mem_singleton_self _) hat
    have hpos := (ho.page t (by rw [htable]; simp)).2.1
    omega

private theorem veiledKernel_munmap :
    ∃ s', Active.sysMunmap veiledKernel 0x900000 4096 = some (0, s') ∧
    walk present s'.machine.mem 0x900000 3 0x20F000 = some 0x900000 := by
  have heval : (Active.sysMunmap veiledKernel 0x900000 4096).map (fun r =>
      (r.1, walk present r.2.machine.mem 0x900000 3 0x20F000)) = some (0, some 0x900000) := by
    decide +kernel
  -- the call is not to be evaluated again
  generalize Active.sysMunmap veiledKernel 0x900000 4096 = o at heval ⊢
  obtain ⟨⟨v, s'⟩, rfl, hr⟩ := Option.map_eq_some_iff.mp heval
  obtain ⟨rfl, hwalk⟩ := Prod.mk.inj hr
  exact ⟨s', rfl, hwalk⟩

/-- Where the page directory is not mapped to itself, `munmap` clears a bit elsewhere and the page
stays. -/
theorem munmap_misses_table : ∃ entries m c s s', GoodMap entries ∧
    Reach Spaces.step anyStep (.boot 0x110000 entries m) c ∧ s.machine = c.machine ∧
    s.currentTask = some 0 ∧ (s.tasks 0).pml4Phys ∈ c.roots ∧
    PageTree s.machine.mem (s.tasks 0).pml4Phys ∧
    ¬ InTable s.machine.mem (s.tasks 0).pml4Phys 0 ∧
    Active.sysMunmap s 0x900000 4096 = some (0, s') ∧
    (translation s'.machine.mem (s.tasks 0).pml4Phys 0x900000).target = some 0x900000 := by
  obtain ⟨fl, htree, -, -, hzero⟩ := veiledSpace_tree
  obtain ⟨s', hcall, hwalk⟩ := veiledKernel_munmap
  have hroot : (veiledKernel.tasks 0).pml4Phys = 0x20F000 := rfl
  refine ⟨_, _, veiledSpace, veiledKernel, s', ⟨by decide, List.pairwise_singleton _ _⟩,
    veiledSpace_reached, rfl, rfl, ?_, ?_, ?_, hcall, ?_⟩
  · exact List.mem_singleton_self _
  · rw [hroot]
    exact htree
  · rw [hroot]
    exact hzero
  · rw [hroot, translation_target]
    exact hwalk

section Frame

variable {use : ℕ → Use} {fl : List ℕ} {h : Machine} {virt va : ℕ}

/-- An address without a translation cannot be used in any way. -/
theorem translation_absent {m : Mem} {r : ℕ} (hw : walk present m va 3 r = none) :
    translation m r va = ⟨none, false, false⟩ := by
  have hno {ok : ℕ → Bool} (ha : Access ok) : walk ok m va 3 r = none := by
    by_contra hsome
    obtain ⟨pa, hpa⟩ := Option.ne_none_iff_exists'.mp hsome
    rw [walk_mono ha.present hpa] at hw
    cases hw
  simp only [translation, hw, hno access_writable, hno access_userOpen, Option.isSome_none]

/-- An address that shares its leaf with none of the pages is translated as before. -/
theorem foldl_unmapPage_kept (ho : Owned use fl h)
    (hr : use h.pagingRoot = .table h.pagingRoot []) {vs : List ℕ}
    (hva : ∀ v ∈ vs, ¬ SharesLeaf h.mem h.pagingRoot v va) :
    translation (vs.foldl unmapPage h).mem h.pagingRoot va =
      translation h.mem h.pagingRoot va := by
  induction vs generalizing h with
  | nil => rfl
  | cons w vs ih =>
    rw [List.foldl_cons]
    have hpage : h.pagingRoot % 4096 = 0 := (ho.page _ (by rw [hr]; simp)).1
    have hstep := translation_congr (unmapPage_kept ho hr w) (shape_eq_some.mpr hr)
      fun hn => hva w List.mem_cons_self hn.2
    have hrest := ih (unmapPage_spec ho hr w).owned (by rw [unmapPage_root]; exact hr)
      fun v hv hs => hva v (List.mem_cons_of_mem w hv)
        (.of_withdrawn (unmapPage_withdrawn hpage w) hpage (by rwa [unmapPage_root] at hs))
    rw [unmapPage_root] at hrest
    exact hrest.trans hstep

end Frame

/-- `munmap` changes no page outside its range exactly when no page that is present there shares its
leaf with one of the range. -/
theorem munmap_frame_iff {use : ℕ → Use} {fl : List ℕ} {s : Kernel} {c virt size : ℕ}
    (ho : Owned use fl s.machine) (hc : s.currentTask = some c)
    (hr : use (s.tasks c).pml4Phys = .table (s.tasks c).pml4Phys []) :
    (∀ va, canonical va → ¬ InRange virt size va →
      translation (sysMunmap s virt size).2.machine.mem (s.tasks c).pml4Phys va =
        translation s.machine.mem (s.tasks c).pml4Phys va) ↔
    ∀ va, canonical va → ¬ InRange virt size va →
      (translation s.machine.mem (s.tasks c).pml4Phys va).target ≠ none →
      ∀ v ∈ pageCursor (rangeStart virt) (rangeEnd virt size),
        ¬ SharesLeaf s.machine.mem (s.tasks c).pml4Phys v va := by
  have hpage := (ho.page _ (by rw [hr]; simp)).1
  have ho' := ho.switch (s.tasks c).pml4Phys
  rw [sysMunmap_mem hc]
  constructor
  · intro hsame va hcan hout hpres v hv hshare
    have hgone := foldl_unmapPage_gone (h := pagingSwitch s.machine (s.tasks c).pml4Phys) hpage hv
      hshare
    apply hpres
    rw [← hsame va hcan hout, translation_target]
    exact hgone
  · intro hcond va hcan hout
    by_cases hpres : (translation s.machine.mem (s.tasks c).pml4Phys va).target = none
    · have hW := foldl_unmapPage_withdrawn (h := pagingSwitch s.machine (s.tasks c).pml4Phys) hpage
        (pageCursor (rangeStart virt) (rangeEnd virt size))
      rw [translation_target] at hpres
      rw [translation_absent hpres]
      apply translation_absent
      by_contra hsome
      obtain ⟨pa, hw⟩ := Option.ne_none_iff_exists'.mp hsome
      have hbefore := (hW.walk_eq hpage hw present).symm.trans hw
      rw [pagingSwitch_mem, hpres] at hbefore
      cases hbefore
    · exact foldl_unmapPage_kept (h := pagingSwitch s.machine (s.tasks c).pml4Phys) ho' hr
        (hcond va hcan hout hpres)

/-- A whole 2 MiB region may be unmapped. -/
theorem munmap_frame_iff_sample : ∃ x, Reachable x ∧ x.kernel.currentTask = some 0 ∧
    ∀ va, canonical va → ¬ InRange 0x800000 0x200000 va →
      translation (sysMunmap x.kernel 0x800000 0x200000).2.machine.mem
        (x.kernel.tasks 0).pml4Phys va =
      translation x.kernel.machine.mem (x.kernel.tasks 0).pml4Phys va := by
  obtain ⟨x, r, use, fl, hk, hp, ht, hs, -⟩ := sample_started
  have hc : x.kernel.currentTask = some 0 := congrArg TaskTable.current ht
  have hn : x.kernel.numTasks = 1 := congrArg TaskTable.num ht
  refine ⟨x, ⟨_, x, hk, .refl⟩, hc,
    (munmap_frame_iff hs.owned hc (hs.root 0 (by omega))).mpr fun va hcan hout _ v hv hshare => ?_⟩
  have hregion : trail va 3 = trail v 3 :=
    hshare.elim (fun h4 => (trail_last h4).1) fun h3 => h3.1
  rw [trail_three_iff] at hregion
  obtain ⟨h1, -, h2⟩ := mem_pageCursor hv
  have hstart : rangeStart 0x800000 = 0x800000 := by decide
  have hend : rangeEnd 0x800000 0x200000 = 0xA00000 := by simp [rangeEnd]
  simp only [canonical, Bool.or_eq_true, Bool.and_eq_true, decide_eq_true_eq] at hcan
  unfold InRange at hout
  omega

/-- A kernel with one task, in the sample space. -/
def oddKernel : Kernel :=
  { initialKernel oddSpace.machine with
    tasks := fun _ => { zeroTask with pml4Phys := 0x20F000 }
    currentTask := some 0
    numTasks := 1 }

/-- Unmapping one page of the identity map takes the next one away. -/
theorem munmap_takes_neighbour : ∃ entries m c s, GoodMap entries ∧
    Reach Spaces.step anyStep (.boot 0x110000 entries m) c ∧
    s.machine = c.machine ∧ s.currentTask = some 0 ∧ (s.tasks 0).pml4Phys ∈ c.roots ∧
    ¬ InRange 0x800000 4096 0x801000 ∧
    (translation s.machine.mem (s.tasks 0).pml4Phys 0x801000).target = some 0x801000 ∧
    (translation (sysMunmap s 0x800000 4096).2.machine.mem
      (s.tasks 0).pml4Phys 0x801000).target = none := by
  refine ⟨_, _, oddSpace, oddKernel, ⟨by decide, List.pairwise_singleton _ _⟩, oddSpace_reached,
    rfl, rfl, List.mem_singleton_self _, ?_, ?_, ?_⟩
  · unfold InRange
    omega
  · decide +kernel
  · decide +kernel

end Mukrn
