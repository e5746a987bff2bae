import Mukrn.Memory.Fresh
import Mukrn.Memory.Spawn
import Mukrn.Memory.UserReach

/-! The heap of one process under a sequence of `brk` calls. The growth loop starts at the old break
as it is, so a call that grows the heap from the middle of a page maps a fresh frame over the page
that is already in use. -/
namespace Mukrn
open ByteMemory PageTable Runs

/-- Every page below the break can be written in user mode. -/
def HeapMapped (m : Mem) (r brk : ℕ) : Prop :=
  ∀ va, heapStart ≤ va → va / 4096 * 4096 < brk → canonical va ∧
  (translation m r va).target ≠ none ∧
    (translation m r va).user = true ∧ (translation m r va).write = true

/-- Every page below the break has the frame it had. -/
def FramesKept (m m' : Mem) (r brk : ℕ) : Prop :=
  ∀ va, heapStart ≤ va → va / 4096 * 4096 < brk →
    (translation m' r va).target = (translation m r va).target

/-- After each call the heap is there, and no call that grows it takes a page away from it. -/
def HeapIntact (r : ℕ) : Kernel → List ℕ → Prop
  | _, [] => True
  | s, addr :: addrs =>
    ∃ v s', Active.sysBrk s addr = some (v, s') ∧ HeapMapped s'.machine.mem r s'.heapBrk ∧
      (s.heapBrk < addr → FramesKept s.machine.mem s'.machine.mem r s.heapBrk) ∧
      HeapIntact r s' addrs

theorem heapIntact_cons {r addr : ℕ} {s : Kernel} {addrs : List ℕ}
    (hcall : Active.sysBrk s addr = some (sysBrk s addr)) : HeapIntact r s (addr :: addrs) ↔
    HeapMapped (sysBrk s addr).2.machine.mem r (sysBrk s addr).2.heapBrk ∧
    (s.heapBrk < addr → FramesKept s.machine.mem (sysBrk s addr).2.machine.mem r s.heapBrk) ∧
    HeapIntact r (sysBrk s addr).2 addrs := by
  rw [HeapIntact, hcall]
  constructor
  · rintro ⟨v, s', heq, h⟩
    rwa [show s' = (sysBrk s addr).2 from congrArg Prod.snd (Option.some.inj heq).symm] at h
  · exact fun h => ⟨_, _, rfl, h⟩

/-- The free pages that the calls take for frames and tables. -/
def brkTaken (r : ℕ) : Kernel → List ℕ → ℕ
  | _, [] => 0
  | s, addr :: addrs =>
    freshTaken (pagePresent ||| pageWritable ||| pageUser) (pagingSwitch s.machine r)
      (pageCursor s.heapBrk addr) + brkTaken r (sysBrk s addr).2 addrs

/-- Every call that grows the heap starts from a break at the start of a page. -/
def GrowsAligned : ℕ → List ℕ → Prop
  | _, [] => True
  | brk, addr :: addrs => (brk < addr → brk % 4096 = 0) ∧ GrowsAligned addr addrs

theorem brkFlags_eq : pagePresent ||| pageWritable ||| pageUser = 7 := by decide

/-- A call that gets its frames. -/
theorem sysBrk_eq {s : Kernel} {c addr : ℕ} (hc : s.currentTask = some c) (h0 : addr ≠ 0)
    (hok : (mapFresh 7 (pagingSwitch s.machine (s.tasks c).pml4Phys)
      (pageCursor s.heapBrk addr)).1 = true) :
    (sysBrk s addr).2 = { s with
      machine := pagingSwitch (mapFresh 7 (pagingSwitch s.machine (s.tasks c).pml4Phys)
        (pageCursor s.heapBrk addr)).2 s.machine.pagingRoot
      heapBrk := addr } := by
  simp only [sysBrk, hc, if_neg h0, brkFlags_eq, hok, if_true]

section Heap

variable {sh sh0 : Shape} {fl : List ℕ} {m0 : Mem} {s : Kernel} {r c addr : ℕ}

/-- What holds between two calls: tables were only added to those that there were at the start, and
each heap page has a frame that is not free. -/
structure HeapState (sh0 : Shape) (m0 : Mem) (r c : ℕ) (fl : List ℕ) (s : Kernel) : Prop where
  task : s.currentTask = some c
  root : (s.tasks c).pml4Phys = r
  tables : ∃ sh, TablesApart sh fl s.machine ∧ ∀ t x, sh0 t = some x → sh t = some x
  links : LinksKept True sh0 m0 s.machine.mem
  bottom : heapStart ≤ s.heapBrk
  top : s.heapBrk ≤ 2 ^ 47
  pages : ∀ v, v % 4096 = 0 → heapStart ≤ v → v < s.heapBrk →
    ∃ f, f ∉ fl ∧ Leads s.machine.mem r v f 7

theorem TablesApart.switch {h : Machine} (hA : TablesApart sh fl h) (r : ℕ) :
    TablesApart sh fl (pagingSwitch h r) :=
  ⟨hA.linked, hA.chain, hA.page, hA.free⟩

/-- Pages of an ascending list below 2^48 are all different, and no later one starts a region of an
earlier one. -/
theorem cursor_separate {start finish : ℕ} (hf : finish ≤ 2 ^ 48) :
    (pageCursor start finish).Pairwise fun u v =>
      trail u 4 ≠ trail v 4 ∧ (True → v % 2 ^ 21 = 0 → trail u 3 ≠ trail v 3) := by
  refine (pageCursor_pairwise _ _).imp_of_mem fun {u v} hu hv huv => ?_
  obtain ⟨-, hu2, hu3⟩ := mem_pageCursor hu
  obtain ⟨-, hv2, hv3⟩ := mem_pageCursor hv
  constructor
  · intro h4
    have hpage := trail_four_inj (by omega) (by omega) h4
    omega
  · intro _ hv0 h3
    have hregion := trail_three_inj (by omega) (by omega) h3
    omega

/-- The pages that a call maps, and the kernel after it. -/
theorem HeapState.run (hs : HeapState sh0 m0 r c fl s) (hr : sh0 r = some (r, []))
    (ha : heapStart ≤ addr) (hlt : addr ≤ 2 ^ 47)
    (hroom : freshTaken 7 (pagingSwitch s.machine r) (pageCursor s.heapBrk addr) ≤ fl.length) :
    ∃ ms sh sh' fl' h', FreshRun True 7 ms sh fl (pagingSwitch s.machine r) sh' fl' h' ∧
      TablesApart sh fl (pagingSwitch s.machine r) ∧ (∀ t x, sh0 t = some x → sh t = some x) ∧
      ms.map Prod.fst = pageCursor s.heapBrk addr ∧
      fl.length = fl'.length + freshTaken 7 (pagingSwitch s.machine r) (pageCursor s.heapBrk addr) ∧
      (sysBrk s addr).2 =
        { s with machine := pagingSwitch h' s.machine.pagingRoot, heapBrk := addr } := by
  obtain ⟨sh, hA, hk⟩ := hs.tables
  have hne : addr ≠ 0 := by
    unfold heapStart at ha
    omega
  obtain ⟨hok, hfst, sh', fl', hrun, hlen⟩ := mapFresh_run True (hA.switch r) (hk _ _ hr)
    (show 7 < 128 by decide) (by decide) (fun _ _ _ => trivial) (cursor_separate (by omega)) hroom
  refine ⟨_, sh, sh', fl', _, hrun, hA.switch r, hk, hfst, hlen, ?_⟩
  have heq := sysBrk_eq hs.task hne (by rw [hs.root]; exact hok)
  rwa [hs.root] at heq

/-- From the start of a page on, the loop does not come to a page below. -/
theorem untouched_below {brk v : ℕ} {ms : List (ℕ × ℕ)}
    (hfst : ms.map Prod.fst = pageCursor brk addr) (hgrow : brk < addr → brk % 4096 = 0)
    (hlt : addr ≤ 2 ^ 48) (hv : v < brk) : ¬ TouchedBy ms v := by
  rintro ⟨p, hp, htouch⟩
  have hmem : p.1 ∈ pageCursor brk addr := by
    rw [← hfst]
    exact List.mem_map_of_mem hp
  obtain ⟨h1, h2, h3⟩ := mem_pageCursor hmem
  have hbrk := hgrow (by omega)
  rcases htouch with h4 | ⟨⟨hregion, -⟩, h3⟩
  · have hpage := trail_four_inj (by omega) (by omega) h4
    omega
  · have hsame := trail_three_inj (by omega) (by omega) h3
    omega

/-- A call that shrinks the heap, or grows it from the start of a page, keeps the pages below the
old break and adds those up to the new one. -/
theorem HeapState.step (hs : HeapState sh0 m0 r c fl s) (hr : sh0 r = some (r, []))
    (ha : heapStart ≤ addr) (hlt : addr ≤ 2 ^ 47) (hgrow : s.heapBrk < addr → s.heapBrk % 4096 = 0)
    (hroom : freshTaken 7 (pagingSwitch s.machine r) (pageCursor s.heapBrk addr) ≤ fl.length) :
    ∃ fl', HeapState sh0 m0 r c fl' (sysBrk s addr).2 ∧
      FramesKept s.machine.mem (sysBrk s addr).2.machine.mem r s.heapBrk ∧
      fl.length = fl'.length +
        freshTaken 7 (pagingSwitch s.machine r) (pageCursor s.heapBrk addr) := by
  obtain ⟨ms, sh, sh', fl', h', hrun, hA, hk, hfst, hlen, heq⟩ := hs.run hr ha hlt hroom
  have hroot : (pagingSwitch s.machine r).pagingRoot = r := rfl
  have hleads := hrun.leads
  have hother := hrun.other
  rw [hroot] at hleads hother
  have hbelow {v pa : ℕ} (hv : v < s.heapBrk) (hl : Leads s.machine.mem r v pa 7) :
      Leads h'.mem r v pa 7 := hother v pa 7 (untouched_below hfst hgrow (by omega) hv) hl
  have hnodup := hrun.frames.nodup hA.chain.nodup
  rw [heq]
  have hkeeps (t : ℕ) (x : ℕ × List ℕ) (hx : sh0 t = some x) := hrun.keeps t x (hk t x hx)
  refine ⟨fl', ⟨hs.task, hs.root, ⟨sh', hrun.apart.switch _, hkeeps⟩,
    hs.links.trans hk hrun.links, ha, hlt, fun v hv h1 h2 => ?_⟩, fun va h1 h2 => ?_, hlen⟩
  · by_cases hvb : v < s.heapBrk
    · obtain ⟨f, hf, hl⟩ := hs.pages v hv h1 hvb
      exact ⟨f, fun hm => hf ((List.sublist_append_right _ fl').trans hrun.frames |>.subset hm),
        hbelow hvb hl⟩
    · have h2 : v < addr := h2
      have hmem : v ∈ ms.map Prod.fst := by
        rw [hfst]
        exact mem_pageCursor_of (by omega) (by rw [hv, hgrow (by omega)]) h2
      obtain ⟨p, hp, rfl⟩ := List.mem_map.mp hmem
      have hl := hleads p hp
      rw [hv, Nat.add_zero] at hl
      exact ⟨p.2, fun hm => List.disjoint_of_nodup_append hnodup (List.mem_map_of_mem hp) hm, hl⟩
  · obtain ⟨f, -, hl⟩ := hs.pages (va / 4096 * 4096) (by omega)
      (by unfold heapStart at h1 ⊢; omega) h2
    have hpage : va / 4096 = va / 4096 * 4096 / 4096 := by omega
    rw [translation_target, translation_target, (hl.of_page (by omega) hpage).walk_eq,
      pagingSwitch_mem, ((hbelow h2 hl).of_page (by omega) hpage).walk_eq]

/-- A call that grows the heap from the middle of a page gives that page another frame. -/
theorem HeapState.remapped (hs : HeapState sh0 m0 r c fl s) (hr : sh0 r = some (r, []))
    (hlt : addr ≤ 2 ^ 47) (hgrow : s.heapBrk < addr) (hmid : s.heapBrk % 4096 ≠ 0)
    (hroom : freshTaken 7 (pagingSwitch s.machine r) (pageCursor s.heapBrk addr) ≤ fl.length) :
    ¬ FramesKept s.machine.mem (sysBrk s addr).2.machine.mem r s.heapBrk := by
  have hb := hs.bottom
  obtain ⟨ms, sh, sh', fl', h', hrun, -, -, hfst, -, heq⟩ := hs.run hr (by omega) hlt hroom
  rw [heq]
  intro hkept
  have hsame := hkept s.heapBrk hb (by omega)
  have hmem : s.heapBrk ∈ ms.map Prod.fst := by
    rw [hfst]
    exact mem_pageCursor_of le_rfl rfl hgrow
  obtain ⟨p, hp, hp1⟩ := List.mem_map.mp hmem
  have hnew : Leads h'.mem r p.1 (p.2 + p.1 % 4096) 7 := hrun.leads p hp
  rw [hp1] at hnew
  obtain ⟨f, hf, hold⟩ := hs.pages (s.heapBrk / 4096 * 4096) (by omega)
    (by unfold heapStart at hb ⊢; omega) (by omega)
  have hold : Leads s.machine.mem r s.heapBrk (f + s.heapBrk % 4096) 7 :=
    hold.of_page (by omega) (by omega)
  rw [translation_target, translation_target, pagingSwitch_mem, hnew.walk_eq, hold.walk_eq] at hsame
  have hfree : p.2 ∈ fl :=
    hrun.frames.subset (List.mem_append_left _ (List.mem_map_of_mem hp))
  obtain rfl : f = p.2 := by
    have := Option.some.inj hsame
    omega
  exact hf hfree

/-- The heap can be used as far as the first gigabyte goes. -/
theorem HeapState.mapped_iff (hs : HeapState sh0 m0 r c fl s) (hr : sh0 r = some (r, []))
    (hL : Linked sh0 m0) (hlow : LowOpen m0 r) :
    HeapMapped s.machine.mem r s.heapBrk ↔ s.heapBrk ≤ 2 ^ 30 := by
  constructor
  · intro hm
    by_contra hgt
    obtain ⟨-, -, hu, -⟩ := hm (2 ^ 30) (by decide) (by omega)
    obtain ⟨sh, hA, hk⟩ := hs.tables
    rw [translation_user] at hu
    obtain ⟨pa, hw⟩ := Option.isSome_iff_exists.mp hu
    have hopen := (hlow.of_links hs.links hL hr).user_low hA.linked (hk _ _ hr) hw
    exact absurd hopen (by decide)
  · intro hle va h1 h2
    have hb := hs.bottom
    obtain ⟨f, -, hl⟩ := hs.pages (va / 4096 * 4096) (by omega)
      (by unfold heapStart at h1 ⊢; omega) h2
    have hl : Leads s.machine.mem r va (f + va % 4096) 7 := hl.of_page (by omega) (by omega)
    have hway {ok : ℕ → Bool} (hok : Access ok) : walk ok s.machine.mem va 3 r = some _ :=
      hs.links.grants hL hr hok (hlow.wayOpen hok (by omega)) hl hok.full
    refine ⟨?_, ?_, ?_, ?_⟩
    · simp only [canonical, Bool.or_eq_true, decide_eq_true_eq]
      omega
    · rw [translation_target, hl.walk_eq]
      exact Option.some_ne_none _
    · rw [translation_user, hway access_userOpen]
      rfl
    · rw [translation_write, hway access_writable]
      rfl

/-- No break beyond the lower half of the address space can be met. -/
theorem HeapMapped.top {m : Mem} {brk : ℕ} (hm : HeapMapped m r brk) : brk ≤ 2 ^ 47 := by
  by_contra hgt
  obtain ⟨hcan, -⟩ := hm (2 ^ 47) (by decide) (by omega)
  exact absurd hcan (by decide)

private theorem pagingSwitch_self {h : Machine} (hr : h.pagingRoot = r) : pagingSwitch h r = h := by
  subst hr
  rfl

/-- Under the root of the heap the tables and the free pages are in place, and stay there when pages
of `V` are mapped. -/
def HeapInPlace (V : ℕ → Prop) (r : ℕ) (s : Kernel) : Prop :=
  ∃ sh fl, TablesApart sh fl s.machine ∧ sh r = some (r, []) ∧
    FreshInPlace sh fl (pagingSwitch s.machine r) V

theorem HeapInPlace.brk {V : ℕ → Prop} (hp : HeapInPlace V r s) (hc : s.currentTask = some c)
    (hroot : (s.tasks c).pml4Phys = r) (hV : ∀ v ∈ pageCursor s.heapBrk addr, V v) :
    Active.sysBrk s addr = some (sysBrk s addr) ∧ HeapInPlace V r (sysBrk s addr).2 := by
  obtain ⟨sh, fl, hA, hr, hp⟩ := hp
  obtain ⟨hloop, sh', fl', hs⟩ := mapFresh_active (hA.switch r) hr hp hV (by decide : 7 < 128)
  simp only [Active.sysBrk, sysBrk, hc, hroot, brkFlags_eq, hloop, Option.map_some]
  split
  · exact ⟨rfl, sh, fl, hA, hr, hp⟩
  · have hlater : HeapInPlace V r { s with machine := pagingSwitch (mapFresh 7
        (pagingSwitch s.machine r) (pageCursor s.heapBrk addr)).2 s.machine.pagingRoot } := by
      refine ⟨sh', fl', hs.apart.switch _, ?_, ?_⟩
      · have htable := hs.table
        rwa [hs.root] at htable
      · have hstill := hp.still hs
        rwa [← pagingSwitch_self hs.root] at hstill
    split
    · exact ⟨rfl, hlater⟩
    · exact ⟨rfl, hlater⟩

/-- With enough free pages a call is successful. -/
theorem HeapState.moved (hs : HeapState sh0 m0 r c fl s) (hr : sh0 r = some (r, []))
    (ha : heapStart ≤ addr)
    (hroom : freshTaken 7 (pagingSwitch s.machine r) (pageCursor s.heapBrk addr) ≤ fl.length) :
    (sysBrk s addr).2.heapBrk = addr := by
  obtain ⟨sh, hA, hk⟩ := hs.tables
  have hok := mapFresh_ok (hA.switch r) (hk _ _ hr) (show 7 < 128 by decide) (by decide) hroom
  have hne : addr ≠ 0 := by
    unfold heapStart at ha
    omega
  rw [sysBrk_eq hs.task hne (by rw [hs.root]; exact hok)]

theorem HeapState.intact_iff {V : ℕ → Prop} (hr : sh0 r = some (r, [])) (hL : Linked sh0 m0)
    (hlow : LowOpen m0 r) {addrs : List ℕ} (hs : HeapState sh0 m0 r c fl s)
    (hp : HeapInPlace V r s) (hV : ∀ v, heapStart ≤ v → (∃ a ∈ addrs, v < a) → V v)
    (haddr : ∀ a ∈ addrs, heapStart ≤ a) (hroom : brkTaken r s addrs ≤ fl.length) :
    HeapIntact r s addrs ↔ GrowsAligned s.heapBrk addrs ∧ ∀ a ∈ addrs, a ≤ 2 ^ 30 := by
  induction addrs generalizing s fl with
  | nil => simp [HeapIntact, GrowsAligned]
  | cons addr addrs ih =>
    obtain ⟨ha, haddr⟩ := List.forall_mem_cons.mp haddr
    rw [brkTaken, brkFlags_eq] at hroom
    have hbrk := hs.moved hr ha (by omega)
    obtain ⟨hcall, hp'⟩ := hp.brk hs.task hs.root fun v hv => by
      obtain ⟨h1, -, h2⟩ := mem_pageCursor hv
      exact hV v (hs.bottom.trans h1) ⟨addr, List.mem_cons_self, h2⟩
    have hV' (v : ℕ) (h1 : heapStart ≤ v) (h2 : ∃ a ∈ addrs, v < a) : V v :=
      hV v h1 (h2.imp fun _ h => ⟨List.mem_cons_of_mem addr h.1, h.2⟩)
    rw [heapIntact_cons hcall, GrowsAligned, List.forall_mem_cons, hbrk]
    by_cases hlt : addr ≤ 2 ^ 47
    · by_cases hgrow : s.heapBrk < addr → s.heapBrk % 4096 = 0
      · obtain ⟨fl', hs', hkept, hlen⟩ := hs.step hr ha hlt hgrow (by omega)
        have hrest := ih hs' hp' hV' haddr (by omega)
        have hmapped := hs'.mapped_iff hr hL hlow
        rw [hbrk] at hrest hmapped
        rw [hrest, hmapped]
        constructor
        · rintro ⟨hle, -, hal, hles⟩
          exact ⟨⟨hgrow, hal⟩, hle, hles⟩
        · rintro ⟨⟨-, hal⟩, hle, hles⟩
          exact ⟨hle, fun _ => hkept, hal, hles⟩
      · constructor
        · rintro ⟨-, hkept, -⟩
          obtain ⟨hlt', hmid⟩ := Classical.not_imp.mp hgrow
          exact absurd (hkept hlt') (hs.remapped hr hlt hlt' hmid (by omega))
        · rintro ⟨⟨hal, -⟩, -⟩
          exact absurd hal hgrow
    · constructor
      · rintro ⟨hm, -⟩
        exact absurd hm.top hlt
      · rintro ⟨-, hle, -⟩
        omega

end Heap

/-- With enough free pages, and tables and free pages in place, the heap of a process stays intact
exactly when no call grows it from the middle of a page, and none beyond the first gigabyte. -/
theorem brk_intact_iff {use : ℕ → Use} {fl : List ℕ} {s : Kernel} {c : ℕ} {addrs : List ℕ}
    (ho : Owned use fl s.machine) (hc : s.currentTask = some c)
    (hr : use (s.tasks c).pml4Phys = .table (s.tasks c).pml4Phys [])
    (hlow : LowOpen s.machine.mem (s.tasks c).pml4Phys) (hbrk : s.heapBrk = heapStart)
    (hp : FreshInPlace (shape use) fl (pagingSwitch s.machine (s.tasks c).pml4Phys)
      fun v => heapStart ≤ v ∧ ∃ a ∈ addrs, v < a)
    (haddr : ∀ a ∈ addrs, heapStart ≤ a)
    (hroom : brkTaken (s.tasks c).pml4Phys s addrs ≤ fl.length) :
    HeapIntact (s.tasks c).pml4Phys s addrs ↔
      GrowsAligned heapStart addrs ∧ ∀ a ∈ addrs, a ≤ 2 ^ 30 := by
  have hs : HeapState (shape use) s.machine.mem (s.tasks c).pml4Phys c fl s := by
    refine ⟨hc, rfl, ⟨shape use, ho.apart, fun _ _ hx => hx⟩, .of_eq fun _ _ _ _ _ => rfl, hbrk.ge,
      by rw [hbrk]; decide, fun v _ h1 h2 => ?_⟩
    omega
  rw [← hbrk]
  exact hs.intact_iff (shape_eq_some.mpr hr) ho.tree.linked hlow
    ⟨_, fl, ho.apart, shape_eq_some.mpr hr, hp⟩ (fun v h1 h2 => ⟨h1, h2⟩) haddr hroom

theorem sysBrk_heapBrk (s : Kernel) (addr : ℕ) :
    (sysBrk s addr).2.heapBrk = s.heapBrk ∨ (sysBrk s addr).2.heapBrk = addr := by
  unfold sysBrk
  split
  · exact .inl rfl
  · split
    · exact .inl rfl
    · dsimp only
      split
      · exact .inr rfl
      · exact .inl rfl

/-- The first task of the sample boot has a heap of two pages and gives one of them up again. -/
theorem brk_intact_sample : ∃ x, Reachable x ∧ x.kernel.heapBrk = heapStart ∧
    HeapIntact (x.kernel.tasks 0).pml4Phys x.kernel [0x602000, 0x601000] := by
  obtain ⟨x, r, use, fl, hk, -, ht, hs, hlen, hlow, hbound, hid⟩ := sample_direct
  have hc : x.kernel.currentTask = some 0 := congrArg TaskTable.current ht
  have hn : x.kernel.numTasks = 1 := congrArg TaskTable.num ht
  have hbrk : x.kernel.heapBrk = heapStart := (kmain_fresh hk).2
  have hroot := hs.root 0 (by omega)
  have ho := hs.owned.switch (x.kernel.tasks 0).pml4Phys
  have hplace : FreshInPlace (shape use) fl (pagingSwitch x.kernel.machine
      (x.kernel.tasks 0).pml4Phys)
      fun v => heapStart ≤ v ∧ ∃ a ∈ [0x602000, 0x601000], v < a := by
    refine ⟨ho.inPlace fun g hg o ho' => hid _ ?_, fun v hv f hf t ht => ?_⟩
    · have hlt := hbound g hg
      omega
    · have hlt := hbound t (ho.tablePage_used ht)
      obtain ⟨h1, a, ha, h2⟩ := hv
      simp only [List.mem_cons, List.not_mem_nil, or_false] at ha
      unfold heapStart at h1
      exact not_touches_region (by omega)
  have htaken : brkTaken (x.kernel.tasks 0).pml4Phys x.kernel [0x602000, 0x601000] ≤ fl.length := by
    have h1 := freshTaken_le 7 (pagingSwitch x.kernel.machine (x.kernel.tasks 0).pml4Phys)
      (pageCursor x.kernel.heapBrk 0x602000)
    have h2 := freshTaken_le 7 (pagingSwitch (sysBrk x.kernel 0x602000).2.machine
      (x.kernel.tasks 0).pml4Phys) (pageCursor (sysBrk x.kernel 0x602000).2.heapBrk 0x601000)
    have hb := sysBrk_heapBrk x.kernel 0x602000
    rw [hbrk, heapStart] at hb
    rw [hbrk, heapStart, pageCursor, List.length_map, List.length_range] at h1
    rw [pageCursor, List.length_map, List.length_range] at h2
    simp only [brkTaken, brkFlags_eq, hbrk]
    rw [pageCursor, heapStart, pageCursor]
    omega
  exact ⟨x, ⟨_, x, hk, .refl⟩, hbrk, (brk_intact_iff hs.owned hc hroot hlow hbrk hplace (by decide)
    htaken).mpr ⟨by simp [GrowsAligned, heapStart], by decide⟩⟩

/-- A heap that grows by half a page and then by the other half loses its first frame. -/
theorem brk_replaces_frame : ∃ entries m c s, GoodMap entries ∧
    Reach Spaces.step anyStep (.boot 0x110000 entries m) c ∧
    s.machine = c.machine ∧ s.currentTask = some 0 ∧ (s.tasks 0).pml4Phys ∈ c.roots ∧
    s.heapBrk = heapStart ∧
    (sysBrk s 0x600800).1 = 0x600000 ∧ (sysBrk (sysBrk s 0x600800).2 0x601000).1 = 0x600800 ∧
    (translation (sysBrk (sysBrk s 0x600800).2 0x601000).2.machine.mem
      (s.tasks 0).pml4Phys 0x600000).target ≠
    (translation (sysBrk s 0x600800).2.machine.mem (s.tasks 0).pml4Phys 0x600000).target := by
  refine ⟨_, _, oddSpace, oddKernel, ⟨by decide, List.pairwise_singleton _ _⟩, oddSpace_reached,
    rfl, rfl, List.mem_singleton_self _, rfl, ?_, ?_, ?_⟩
  · decide +kernel
  · decide +kernel
  · decide +kernel

end Mukrn
