import Mukrn.Memory.Unmap

/-! `map_page` and `sys_mmap_phys` as exact updates of the translation, and what `read_pte` reads
back from the page tables. -/
namespace Mukrn
open ByteMemory PageTable Runs

/-- Where the tables and the free pages are in place, `map_page` changes exactly the translations it
is called for, or none when a table it needs cannot be allocated. -/
theorem mapPage_exact {fl : List ℕ} {h : Machine} (virt : ℕ) {phys flags : ℕ}
    (hT : PageTree h.mem h.pagingRoot) (hF : FreePages fl h)
    (hplace : InPlace (treeShape h.mem h.pagingRoot) fl h) (hvirt : virt < 2 ^ 48)
    (hphys : phys % 4096 = 0) (hlt : phys < 2 ^ 64) (hf : flags < 128) (hp : present flags) :
    ∃ h', Active.mapPage h virt phys flags = some h' ∧
    (fl.length < missingTables h virt phys → ∀ va,
      translation h'.mem h.pagingRoot va =
        translation h.mem h.pagingRoot va) ∧
    (missingTables h virt phys ≤ fl.length →
      (∀ va < 2 ^ 48, InMapping virt phys va →
        (translation h'.mem h.pagingRoot va).target =
          some (mappedTo virt phys va)) ∧
      (¬ (virt % 2 ^ 21 = 0 ∧ phys % 2 ^ 21 = 0) → ∃ t,
        TableAt present h'.mem h.pagingRoot (trail virt 3) t ∧
          entry h'.mem t (ptIndex virt) = phys ||| flags) ∧
      ∀ va < 2 ^ 48, ¬ InMapping virt phys va →
        translation h'.mem h.pagingRoot va =
          translation h.mem h.pagingRoot va) := by
  have hr := hT.shape_eq .root
  refine ⟨_, mapPage_active (hT.apart hF) hplace hr virt phys flags, ?_, ?_⟩
  · intro hshort va
    rcases mapPage_apart virt (hT.apart hF) hr hphys hlt hf with ⟨-, n, sh', hx⟩ | ⟨henough, -⟩
    · exact translation_congr hx.walks hr id
    · omega
  · intro henough
    rcases mapPage_apart virt (hT.apart hF) hr hphys hlt hf with ⟨hshort, -⟩ | ⟨-, sh', fl', hm⟩
    · omega
    · refine ⟨fun va _ hin => ?_, fun hc => ?_, fun va hva hout =>
        translation_congr hm.walks hr fun hn => hout (inMapping_of_touches hva hvirt hn.2)⟩
      · rw [translation_target]
        exact hm.mapped hp va (touches_of_inMapping hin)
      · obtain ⟨t, hat, he⟩ := hm.leaf
        rw [if_neg hc] at hat
        rw [if_neg hc, if_neg hc] at he
        exact ⟨t, hat, he⟩

/-- One page of the sample boot's identity map is mapped elsewhere; the others of its 2 MiB page,
which has to be split, are where they were. -/
theorem mapPage_exact_sample : ∃ x h', Reachable x ∧
    Active.mapPage (pagingSwitch x.kernel.machine (x.kernel.tasks 0).pml4Phys) 0x201000 0x5000 7 =
      some h' ∧
    (translation h'.mem (x.kernel.tasks 0).pml4Phys 0x201010).target = some 0x5010 ∧
    (translation h'.mem (x.kernel.tasks 0).pml4Phys 0x202000).target = some 0x202000 := by
  obtain ⟨x, r, use, fl, hk, -, ht, hs, hlen, -, hlow, hid⟩ := sample_direct
  have hn : x.kernel.numTasks = 1 := congrArg TaskTable.num ht
  have hroot := hs.root 0 (by omega)
  have ho := hs.owned.switch (x.kernel.tasks 0).pml4Phys
  have hplace : InPlace (treeShape x.kernel.machine.mem (x.kernel.tasks 0).pml4Phys) fl
      (pagingSwitch x.kernel.machine (x.kernel.tasks 0).pml4Phys) := fun t ht o ho' => hid _ (by
    have hlt := hlow t (ho.treePage_used hroot ht)
    omega)
  obtain ⟨h', heq, -, henough⟩ := mapPage_exact 0x201000 (ho.pageTree hroot) (ho.freePages hroot)
    hplace (by decide) (by decide : 0x5000 % 4096 = 0) (by decide) (by decide : 7 < 128) (by decide)
  have hmissing := missingTables_le (pagingSwitch x.kernel.machine (x.kernel.tasks 0).pml4Phys)
    0x201000 0x5000
  obtain ⟨hin, -, hout⟩ := henough (by omega)
  refine ⟨x, h', ⟨_, x, hk, .refl⟩, heq, ?_, ?_⟩
  · refine hin 0x201010 (by decide) ?_
    rw [InMapping, if_neg (by decide)]
  · have hsame := hout 0x202000 (by decide) (by rw [InMapping, if_neg (by decide)]; decide)
    have htr := hid 0x202000 (by decide)
    rw [translate, if_pos (by decide)] at htr
    rw [pagingSwitch_root] at hsame htr
    rw [hsame, translation_target]
    exact htr

private theorem veiledSpace_mapPage : ∃ h',
    Active.mapPage veiledSpace.machine 0x703000 0x5000 7 = some h' ∧
    walk present h'.mem 0x703000 3 0x20F000 = some 0x703000 := by
  have heval : (Active.mapPage veiledSpace.machine 0x703000 0x5000 7).map (fun h =>
      walk present h.mem 0x703000 3 0x20F000) = some (some 0x703000) := by decide +kernel
  -- the call is not to be evaluated again
  generalize Active.mapPage veiledSpace.machine 0x703000 0x5000 7 = o at heval ⊢
  obtain ⟨h', rfl, hwalk⟩ := Option.map_eq_some_iff.mp heval
  exact ⟨h', rfl, hwalk⟩

/-- Where the page directory is not mapped to itself, `map_page` writes a leaf elsewhere and the
page is not mapped. -/
theorem mapPage_misses_table : ∃ entries m c fl h', GoodMap entries ∧
    Reach Spaces.step anyStep (.boot 0x110000 entries m) c ∧ c.machine.pagingRoot ∈ c.roots ∧
    PageTree c.machine.mem c.machine.pagingRoot ∧ FreePages fl c.machine ∧
    missingTables c.machine 0x703000 0x5000 ≤ fl.length ∧
    Active.mapPage c.machine 0x703000 0x5000 7 = some h' ∧
    (translation h'.mem c.machine.pagingRoot 0x703000).target = some 0x703000 := by
  obtain ⟨fl, htree, hfree, hlen, -⟩ := veiledSpace_tree
  obtain ⟨h', hcall, hwalk⟩ := veiledSpace_mapPage
  have hactive := veiledSpace_eval.1
  refine ⟨_, _, veiledSpace, fl, h', ⟨by decide, List.pairwise_singleton _ _⟩,
    veiledSpace_reached, ?_, ?_, hfree, (missingTables_le _ _ _).trans hlen, hcall, ?_⟩
  · rw [hactive]
    exact List.mem_singleton_self _
  · rw [hactive]
    exact htree
  · rw [hactive, translation_target]
    exact hwalk

/-- The tables that mapping pages one after the other takes from the free list. -/
def tablesTaken (phys : ℕ → ℕ) (flags : ℕ) : Machine → List ℕ → ℕ
  | _, [] => 0
  | h, v :: vs =>
    missingTables h v (phys v) + tablesTaken phys flags (mapPage h v (phys v) flags) vs

/-- Three tables for a page are always enough. -/
theorem tablesTaken_le (phys : ℕ → ℕ) (flags : ℕ) (h : Machine) (vs : List ℕ) :
    tablesTaken phys flags h vs ≤ 3 * vs.length := by
  induction vs generalizing h with
  | nil => exact Nat.zero_le _
  | cons v vs ih =>
    have hv := missingTables_le h v (phys v)
    have hvs := ih (mapPage h v (phys v) flags)
    rw [tablesTaken, List.length_cons]
    omega

section Loop

variable {sh : Shape} {fl : List ℕ} {h : Machine} {phys : ℕ → ℕ} {flags : ℕ}

/-- A page that is mapped later does not touch one that was mapped before: it is a different page,
and if a whole region is mapped, the earlier page is in another one. -/
theorem not_touches_of_lt {v w p : ℕ} (hv : v < 2 ^ 48) (hw : w < 2 ^ 48) (hv0 : v % 4096 = 0)
    (hw0 : w % 4096 = 0) (hlt : v < w) : ¬ Touches w p v := by
  rintro (h4 | ⟨⟨hc, -⟩, h3⟩)
  · have hpage := trail_four_inj hv hw h4
    omega
  · have hregion := trail_three_inj hv hw h3
    omega

/-- After a loop over ascending pages each of them has the leaf that its turn made. -/
theorem foldl_mapPage_leads (hA : TablesApart sh fl h)
    (hr : sh h.pagingRoot = some (h.pagingRoot, [])) (hf : flags < 128) (hpf : present flags)
    {vs : List ℕ} (hvs : ∀ v ∈ vs, v % 4096 = 0 ∧ v < 2 ^ 48) (hsort : vs.Pairwise (· < ·))
    (hphys : ∀ v ∈ vs, phys v % 4096 = 0 ∧ phys v < 2 ^ 64)
    (hn : tablesTaken phys flags h vs ≤ fl.length) :
    (∀ v ∈ vs, Leads (vs.foldl (fun h v => mapPage h v (phys v) flags) h).mem h.pagingRoot v
      (phys v)
      flags) ∧
    ∀ va pa bits, (∀ v ∈ vs, ¬ Touches v (phys v) va) → Leads h.mem h.pagingRoot va pa bits →
      Leads (vs.foldl (fun h v => mapPage h v (phys v) flags) h).mem h.pagingRoot va pa bits := by
  induction vs generalizing sh fl h with
  | nil => exact ⟨fun v hv => absurd hv List.not_mem_nil, fun va pa bits _ hl => hl⟩
  | cons v vs ih =>
    obtain ⟨hv0, hv⟩ := hvs v List.mem_cons_self
    obtain ⟨hp0, hp⟩ := hphys v List.mem_cons_self
    obtain ⟨hbelow, hsort⟩ := List.pairwise_cons.mp hsort
    rw [tablesTaken] at hn
    obtain ⟨sh', fl', hm⟩ := mapPage_mapped v hA hr hp0 hp hf hpf (by omega)
    have hself := hm.self
    have hused := hm.used
    rw [hv0, Nat.add_zero] at hself
    rw [List.foldl_cons]
    generalize mapPage h v (phys v) flags = h' at hm hn hself ⊢
    obtain ⟨hmem, hkept⟩ := ih hm.apart (by rw [hm.root]; exact hm.keeps _ _ hr)
      (fun w hw => hvs w (List.mem_cons_of_mem v hw)) hsort
      (fun w hw => hphys w (List.mem_cons_of_mem v hw)) (by omega)
    rw [hm.root] at hmem hkept
    refine ⟨fun w hw => ?_, fun va pa bits hva hl => ?_⟩
    · rcases List.mem_cons.mp hw with rfl | hw
      · refine hkept w _ _ (fun u hu => ?_) hself
        obtain ⟨hu0, hu48⟩ := hvs u (List.mem_cons_of_mem w hu)
        exact not_touches_of_lt hv hu48 hv0 hu0 (hbelow u hu)
      · exact hmem w hw
    · exact hkept va pa bits (fun w hw => hva w (List.mem_cons_of_mem v hw))
        (hm.other va pa bits (hva v List.mem_cons_self) hl)

end Loop

section MmapPhys

variable {s : Kernel} {c virt phys size flags : ℕ}

theorem sysMmapPhys_mem (hc : s.currentTask = some c) (virt phys size flags : ℕ) :
    (sysMmapPhys s virt phys size flags).2.machine.mem =
      ((pageCursor (rangeStart virt) (rangeEnd virt size)).foldl
        (fun h v => mapPage h v ((rangeStart phys + (v - rangeStart virt)) % 2 ^ 64)
          (mmapPhysFlags flags)) (pagingSwitch s.machine (s.tasks c).pml4Phys)).mem := by
  simp only [sysMmapPhys, hc, underRoot, pagingSwitch_mem]

/-- `sys_mmap_phys` maps the pages of the range one after the other to consecutive frames, with the
rights and the caching asked for, as long as there are pages for the tables it adds and all tables
and free pages stay in place. -/
theorem mmapPhys_linear {fl : List ℕ} (hc : s.currentTask = some c)
    (hT : PageTree s.machine.mem (s.tasks c).pml4Phys)
    (hF : FreePages fl (pagingSwitch s.machine (s.tasks c).pml4Phys))
    (hplace : InPlace (treeShape s.machine.mem (s.tasks c).pml4Phys) fl
      (pagingSwitch s.machine (s.tasks c).pml4Phys))
    (hclear : ∀ v ∈ pageCursor (rangeStart virt) (rangeEnd virt size), ∀ t,
      TablePage (treeShape s.machine.mem (s.tasks c).pml4Phys) fl (s.tasks c).pml4Phys t →
      ¬ Touches v ((rangeStart phys + (v - rangeStart virt)) % 2 ^ 64) t)
    (hvirt : virt + size + 4095 < 2 ^ 48) (hphys : phys + size < 2 ^ 52)
    (hn : tablesTaken (fun v => (rangeStart phys + (v - rangeStart virt)) % 2 ^ 64)
      (mmapPhysFlags flags) (pagingSwitch s.machine (s.tasks c).pml4Phys)
      (pageCursor (rangeStart virt) (rangeEnd virt size)) ≤ fl.length) :
    ∃ s', Active.sysMmapPhys s virt phys size flags = some (0, s') ∧
    ∀ k o, rangeStart virt + 4096 * k < rangeEnd virt size → o < 4096 →
      (translation s'.machine.mem (s.tasks c).pml4Phys
        (rangeStart virt + 4096 * k + o)).target = some (rangeStart phys + 4096 * k + o) ∧
      ∃ l e, LeafAt s'.machine.mem (s.tasks c).pml4Phys
          (rangeStart virt + 4096 * k + o) l e ∧ present e ∧ e / 4 % 2 = 1 ∧
        (e / 2 % 2 = 1 ↔ flags / 2 % 2 = 1) ∧ (e / 16 % 2 = 1 ↔ flags / 4 % 2 = 1) := by
  obtain ⟨hf, hpf, huser, hwrite, hcache⟩ := mmapPhysFlags_bits flags
  have hend : rangeEnd virt size = (virt + size + 4095) / 4096 * 4096 := by
    rw [rangeEnd, Nat.mod_eq_of_lt (by omega)]
  have hstart : rangeStart virt = virt / 4096 * 4096 := rfl
  have hbase : rangeStart phys = phys / 4096 * 4096 := rfl
  have hpages {v : ℕ} (hv : v ∈ pageCursor (rangeStart virt) (rangeEnd virt size)) :
      v % 4096 = 0 ∧ v < 2 ^ 48 ∧ (rangeStart phys + (v - rangeStart virt)) % 2 ^ 64 =
        rangeStart phys + (v - rangeStart virt) := by
    obtain ⟨h1, h2, h3⟩ := mem_pageCursor hv
    omega
  have hframe {v : ℕ} (hv : v ∈ pageCursor (rangeStart virt) (rangeEnd virt size)) :
      (rangeStart phys + (v - rangeStart virt)) % 2 ^ 64 % 4096 = 0 := by
    obtain ⟨h0, -, h2⟩ := hpages hv
    omega
  have hcall : Active.sysMmapPhys s virt phys size flags =
      some (0, (sysMmapPhys s virt phys size flags).2) := by
    have hloop := foldlM_mapPage_active (h := pagingSwitch s.machine (s.tasks c).pml4Phys)
      (PageTree.apart hT hF) hplace (hT.shape_eq .root) hf
      (fun v hv => ⟨hframe hv, Nat.mod_lt _ (by decide)⟩) hclear
    simp only [Active.sysMmapPhys, sysMmapPhys, hc, Active.underRoot, underRoot, hloop,
      Option.map_some]
  refine ⟨_, hcall, fun k o hk ho => ?_⟩
  have hmem : rangeStart virt + 4096 * k ∈ pageCursor (rangeStart virt) (rangeEnd virt size) :=
    mem_pageCursor_of (by omega) (by omega) hk
  have hleads := (foldl_mapPage_leads (h := pagingSwitch s.machine (s.tasks c).pml4Phys)
    (PageTree.apart hT hF) (hT.shape_eq .root) hf hpf
    (fun v hv => ⟨(hpages hv).1, (hpages hv).2.1⟩) (pageCursor_pairwise _ _)
    (fun v hv => ⟨hframe hv, Nat.mod_lt _ (by decide)⟩) hn).1 _ hmem
  rw [← sysMmapPhys_mem hc virt phys size flags, (hpages hmem).2.2,
    pagingSwitch_root] at hleads
  obtain ⟨l, e, hleaf, hpa, hbits⟩ := hleads
  have hsame : (rangeStart virt + 4096 * k + o) / 4096 = (rangeStart virt + 4096 * k) / 4096 := by
    omega
  have hleaf' := hleaf.of_page hsame
  refine ⟨?_, l, e, hleaf', hleaf'.present, by omega, by omega, by omega⟩
  have hsum : rangeStart phys + (rangeStart virt + 4096 * k - rangeStart virt) +
      (rangeStart virt + 4096 * k + o) % 4096 = rangeStart phys + 4096 * k + o := by omega
  rw [translation_target, hleaf'.walk_eq, hleaf.leaf_page (by omega) hsame, hpa, hsum]

end MmapPhys

/-- Two frames below the sample boot's kernel, mapped above its memory. -/
theorem mmapPhys_linear_sample : ∃ x s', Reachable x ∧
    Active.sysMmapPhys x.kernel 0x801000 0x5000 8192 6 = some (0, s') ∧
    (translation s'.machine.mem (x.kernel.tasks 0).pml4Phys 0x802010).target = some 0x6010 ∧
    ∃ l e, LeafAt s'.machine.mem (x.kernel.tasks 0).pml4Phys 0x802010 l e ∧ present e ∧
      e / 4 % 2 = 1 ∧ e / 2 % 2 = 1 ∧ e / 16 % 2 = 1 := by
  obtain ⟨x, r, use, fl, hk, -, ht, hs, hlen, -, hlow, hid⟩ := sample_direct
  have hc : x.kernel.currentTask = some 0 := congrArg TaskTable.current ht
  have hn : x.kernel.numTasks = 1 := congrArg TaskTable.num ht
  have hroot := hs.root 0 (by omega)
  have ho := hs.owned.switch (x.kernel.tasks 0).pml4Phys
  have hpages : pageCursor (rangeStart 0x801000) (rangeEnd 0x801000 8192) =
      [0x801000, 0x802000] := by decide
  have hplace : InPlace (treeShape x.kernel.machine.mem (x.kernel.tasks 0).pml4Phys) fl
      (pagingSwitch x.kernel.machine (x.kernel.tasks 0).pml4Phys) := fun t ht o ho' => hid _ (by
    have hlt := hlow t (ho.treePage_used hroot ht)
    omega)
  have htables := tablesTaken_le (fun v => (rangeStart 0x5000 + (v - rangeStart 0x801000)) % 2 ^ 64)
    (mmapPhysFlags 6) (pagingSwitch x.kernel.machine (x.kernel.tasks 0).pml4Phys)
    (pageCursor (rangeStart 0x801000) (rangeEnd 0x801000 8192))
  have hfew : 3 * (pageCursor (rangeStart 0x801000) (rangeEnd 0x801000 8192)).length ≤
    fl.length := by
    rw [hpages]
    exact (by decide : 3 * 2 ≤ 39).trans hlen
  obtain ⟨s', hcall, hlinear⟩ := mmapPhys_linear hc (ho.pageTree hroot) (ho.freePages hroot) hplace
    (fun v hv t ht => by
      have hlt := hlow t (ho.treePage_used hroot ht)
      rw [hpages] at hv
      simp only [List.mem_cons, List.not_mem_nil, or_false] at hv
      exact not_touches_region (by omega)) (by decide) (by decide) (htables.trans hfew)
  obtain ⟨htarget, l, e, hleaf, hp, hu, hw, hd⟩ := hlinear 1 0x10 (by decide) (by decide)
  exact ⟨x, s', ⟨_, x, hk, .refl⟩, hcall, htarget, l, e, hleaf, hp, hu, hw.mpr rfl, hd.mpr rfl⟩

private theorem veiledKernel_mmapPhys : ∃ s',
    Active.sysMmapPhys veiledKernel 0x701000 0x300000 4096 2 = some (0, s') ∧
    walk present s'.machine.mem 0x701000 3 0x20F000 = some 0x701000 := by
  have heval : (Active.sysMmapPhys veiledKernel 0x701000 0x300000 4096 2).map (fun r =>
      (r.1, walk present r.2.machine.mem 0x701000 3 0x20F000)) = some (0, some 0x701000) := by
    decide +kernel
  generalize Active.sysMmapPhys veiledKernel 0x701000 0x300000 4096 2 = o at heval ⊢
  obtain ⟨⟨v, s'⟩, rfl, hr⟩ := Option.map_eq_some_iff.mp heval
  obtain ⟨rfl, hwalk⟩ := Prod.mk.inj hr
  exact ⟨s', rfl, hwalk⟩

/-- Where the page directory is not mapped to itself, `mmap_phys` answers 0 and the page leads where
it led before. -/
theorem mmapPhys_misses_table : ∃ entries m c s fl s', GoodMap entries ∧
    Reach Spaces.step anyStep (.boot 0x110000 entries m) c ∧ s.machine = c.machine ∧
    s.currentTask = some 0 ∧ (s.tasks 0).pml4Phys ∈ c.roots ∧
    PageTree s.machine.mem (s.tasks 0).pml4Phys ∧ FreePages fl s.machine ∧ 3 ≤ fl.length ∧
    Active.sysMmapPhys s 0x701000 0x300000 4096 2 = some (0, s') ∧
    (translation s'.machine.mem (s.tasks 0).pml4Phys 0x701000).target = some 0x701000 := by
  obtain ⟨fl, htree, hfree, hlen, -⟩ := veiledSpace_tree
  obtain ⟨s', hcall, hwalk⟩ := veiledKernel_mmapPhys
  have hroot : (veiledKernel.tasks 0).pml4Phys = 0x20F000 := rfl
  refine ⟨_, _, veiledSpace, veiledKernel, fl, s', ⟨by decide, List.pairwise_singleton _ _⟩,
    veiledSpace_reached, rfl, rfl, ?_, ?_, hfree, hlen, hcall, ?_⟩
  · exact List.mem_singleton_self _
  · rw [hroot]
    exact htree
  · rw [hroot, translation_target]
    exact hwalk

/-- A present third-level entry says where an address leads: it is a 2 MiB leaf and the address is
in the part that its own bits name, or the link to a table that the address leads to itself. An
absent page is reported only below a table at address 0. -/
def EntryAnswers (m : Mem) (e virt : ℕ) : Prop :=
  if huge e then e / 4096 % 512 = ptIndex virt
  else if present (entry m (frameOf e) (ptIndex virt)) then
    frameOf (entry m (frameOf e) (ptIndex virt)) = frameOf e
  else frameOf e = 0 ∧ virt % 4096 = 0

/-- The third-level entry of an address, if there is one and it is present, says where it leads. -/
def ThirdLevelAnswers (m : Mem) (r virt : ℕ) : Prop :=
  ∀ t, TableAt present m r (trail virt 2) t → present (entry m t (pdtIndex virt)) →
    EntryAnswers m (entry m t (pdtIndex virt)) virt

section ReadPte

variable {m : Mem} {r t virt : ℕ}

/-- The walk of `read_pte` ends at the third level. -/
theorem readPte_third (hat : TableAt present m r (trail virt 2) t) :
    readPte m r virt = if present (entry m t (pdtIndex virt)) then
      frameOf (entry m t (pdtIndex virt)) + virt % 4096 else 0 := by
  have hthird := thirdTable_iff.mpr hat
  simp only [thirdTable, Option.ite_none_right_eq_some, Option.some.injEq, Bool.and_eq_true,
    Bool.not_eq_true'] at hthird
  obtain ⟨⟨⟨h1, h2⟩, h3⟩, rfl⟩ := hthird
  simp only [readPte, h1, h2, h3, Bool.not_true, Bool.false_eq_true, if_false]
  cases present (entry m (frameOf (entry m (frameOf (entry m r (pml4Index virt))) (pdptIndex virt)))
    (pdtIndex virt)) <;> rfl

/-- Without a third-level table there is no page, and none is reported. -/
theorem readPte_absent (hT : PageTree m r) (hno : thirdTable m r virt = none) :
    readPte m r virt = 0 ∧ walk present m virt 3 r = none := by
  have hroot : TableAt present m r [] r := .root
  cases h1 : present (entry m r (pml4Index virt)) with
  | false =>
    refine ⟨?_, walk_absent access_present.present h1⟩
    simp only [readPte, h1, Bool.not_false, if_true]
  | true =>
    have hat1 : TableAt present m r (trail virt 1) (frameOf (entry m r (pml4Index virt))) :=
      hroot.next (index_lt 3 virt) (by simp) h1 (.inl rfl)
    cases h2 : present (entry m (frameOf (entry m r (pml4Index virt))) (pdptIndex virt)) with
    | false =>
      refine ⟨?_, hat1.walk_absent access_present.present rfl (l := 2) rfl h2⟩
      simp only [readPte, h1, h2, Bool.not_true, Bool.not_false, Bool.false_eq_true, if_false,
        if_true]
    | true =>
      have h3 : huge (entry m (frameOf (entry m r (pml4Index virt))) (pdptIndex virt)) = false :=
        hT.flat _ _ hat1 _ (index_lt 2 virt) h2
      simp [thirdTable, h1, h2, h3] at hno

theorem readPte_walk_iff (hT : PageTree m r) (virt : ℕ) :
    readPte m r virt = (walk present m virt 3 r).getD 0 ↔ ThirdLevelAnswers m r virt := by
  cases hthird : thirdTable m r virt with
  | none =>
    obtain ⟨hread, hwalk⟩ := readPte_absent hT hthird
    rw [hread, hwalk, Option.getD_none]
    refine ⟨fun _ t hat => ?_, fun _ => rfl⟩
    rw [thirdTable_iff.mpr hat] at hthird
    cases hthird
  | some t =>
    have hat := thirdTable_iff.mp hthird
    have hanswer : ThirdLevelAnswers m r virt ↔ (present (entry m t (pdtIndex virt)) →
        EntryAnswers m (entry m t (pdtIndex virt)) virt) :=
      ⟨fun hall => hall t hat, fun hone t' hat' => by rw [hat'.unique hat]; exact hone⟩
    have hindex : index 1 virt = pdtIndex virt := rfl
    have hlast : index 0 virt = ptIndex virt := rfl
    rw [hanswer, EntryAnswers, readPte_third hat, hat.walk_eq (l := 1) rfl rfl, walk, walk, hindex,
      hlast]
    cases hp : present (entry m t (pdtIndex virt)) with
    | false => simp
    | true =>
      cases hh : huge (entry m t (pdtIndex virt)) with
      | true =>
        simp only [ptIndex, leaf, frameOf, Nat.mul_one, Nat.reduceAdd, Bool.not_true,
          Bool.false_eq_true, if_false, if_true, Nat.zero_lt_two, decide_true, Bool.and_true,
          Option.getD_some, forall_const]
        omega
      | false =>
        have hzero := leaf_zero (entry m (frameOf (entry m t (pdtIndex virt))) (ptIndex virt)) virt
        simp only [hzero, Bool.not_true, Bool.false_eq_true, if_false, if_true, Bool.and_false,
          forall_const]
        split
        · rw [Option.getD_some]
          omega
        · rw [Option.getD_none]
          omega

end ReadPte

/-- `read_pte` agrees with the processor exactly where the third-level entry is all that matters.
For a page that was just mapped this is a 2 MiB page, or a page whose frame is its own table. -/
theorem readPte_iff {h : Machine} (hT : PageTree h.mem h.pagingRoot) (virt : ℕ) :
    (readPte h.mem h.pagingRoot virt = (walk present h.mem virt 3 h.pagingRoot).getD 0 ↔
      ThirdLevelAnswers h.mem h.pagingRoot virt) ∧
    ∀ fl phys flags, FreePages fl h → virt % 4096 = 0 → phys % 4096 = 0 → phys < 2 ^ 64 →
      flags < 128 → present flags → missingTables h virt phys ≤ fl.length →
      (readPte (mapPage h virt phys flags).mem h.pagingRoot virt = phys ↔
        (virt % 2 ^ 21 = 0 ∧ phys % 2 ^ 21 = 0) ∨
          TableAt present (mapPage h virt phys flags).mem h.pagingRoot (trail virt 3) phys) := by
  refine ⟨readPte_walk_iff hT virt, fun fl phys flags hF hvirt hphys hlt hf hpf hn => ?_⟩
  rcases mapPage_apart virt (hT.apart hF) (hT.shape_eq .root) hphys hlt hf with
    ⟨hfew, -⟩ | ⟨-, sh', fl', hm⟩
  · omega
  obtain ⟨t, hat, he⟩ := hm.leaf
  generalize (mapPage h virt phys flags).mem = m' at hat he ⊢
  by_cases hc : virt % 2 ^ 21 = 0 ∧ phys % 2 ^ 21 = 0
  · rw [if_pos hc] at hat
    rw [if_pos hc, if_pos hc, hugeLeaf_eq hphys hf] at he
    have hp : present (phys + (flags + 128)) := by
      simp only [present, beq_iff_eq] at hpf ⊢
      omega
    rw [readPte_third hat, he, if_pos hp, frameOf]
    refine iff_of_true ?_ (.inl hc)
    omega
  · rw [if_neg hc] at hat
    obtain ⟨t0, hat0, -, -, hp0, -, rfl⟩ := TableAt.link (trail_succ virt 2 ▸ hat)
    have hp0 : present (entry m' t0 (pdtIndex virt)) := hp0
    rw [readPte_third hat0, if_pos hp0, hvirt, Nat.add_zero, or_iff_right hc]
    constructor
    · rintro rfl
      exact hat
    · intro hself
      exact hat.unique hself

/-- An empty root at `0x1000` and three free pages. -/
def emptyRoot : Machine where
  mem := store64 (store64 (fun _ => 0) 0x2000 0x3000) 0x3000 0x4000
  freeStack := 0x2000
  pagingRoot := 0x1000

private theorem emptyRoot_entry {i : ℕ} (hi : i < 512) : entry emptyRoot.mem 0x1000 i = 0 := by
  have hz : load64 (fun _ => 0) (0x1000 + 8 * i) = 0 := by simp [load]
  have h1 : load64 (store64 (fun _ => 0) 0x2000 0x3000) (0x1000 + 8 * i) = 0 :=
    (load_store_outside (by omega)).trans hz
  exact (load_store_outside (by omega)).trans h1

private theorem emptyRoot_tableAt {p : List ℕ} {t : ℕ}
    (h : TableAt present emptyRoot.mem 0x1000 p t) : p = [] ∧ t = 0x1000 := by
  induction h with
  | root => exact ⟨rfl, rfl⟩
  | next _ hi _ he _ ih =>
    rw [ih.2, emptyRoot_entry hi] at he
    cases he

theorem emptyRoot_tree : PageTree emptyRoot.mem 0x1000 := by
  refine ⟨rfl, fun p q t hp hq => ?_, fun i t ht => ?_⟩
  · rw [(emptyRoot_tableAt hp).1, (emptyRoot_tableAt hq).1]
  · exact absurd (emptyRoot_tableAt ht).1 (by simp)

theorem emptyRoot_free : FreePages [0x2000, 0x3000, 0x4000] emptyRoot := by
  have hlast : load64 emptyRoot.mem 0x4000 = 0 := by decide
  have hnext : load64 emptyRoot.mem 0x3000 = 0x4000 := by decide
  have hfirst : load64 emptyRoot.mem 0x2000 = 0x3000 := by decide
  refine ⟨⟨rfl, by decide, hfirst, by decide, hnext, by decide, hlast⟩, by decide,
    fun f hf p hp => ?_⟩
  rw [(emptyRoot_tableAt hp).2] at hf
  revert hf
  decide

/-- A 2 MiB page is read back. -/
theorem readPte_iff_sample :
    readPte (mapPage emptyRoot 0x400000 0x200000 7).mem 0x1000 0x400000 = 0x200000 := by
  exact ((readPte_iff (h := emptyRoot) emptyRoot_tree 0x400000).2 _ _ 7 emptyRoot_free (by decide)
    (by decide) (by decide) (by decide) (by decide) (missingTables_le _ _ _)).mpr (.inl (by decide))

/-- Of a 4 KiB page the table is reported instead of its frame. -/
theorem readPte_reports_table : ∃ h fl, PageTree h.mem h.pagingRoot ∧ FreePages fl h ∧
    missingTables h 0x400000 0x5000 ≤ fl.length ∧
    walk present (mapPage h 0x400000 0x5000 7).mem 0x400000 3 h.pagingRoot = some 0x5000 ∧
    readPte (mapPage h 0x400000 0x5000 7).mem h.pagingRoot 0x400000 = 0x4000 := by
  refine ⟨emptyRoot, _, emptyRoot_tree, emptyRoot_free, missingTables_le _ _ _, ?_, ?_⟩
  · decide +kernel
  · decide +kernel

end Mukrn
