import Mukrn.Memory.Given

/-! The allocator reads and clears free pages through the page table that is active. It reaches the
frame it means where the page's address is translated to itself, as a copy of the template does in
the first gigabyte, until a request maps or unmaps that address. -/
namespace Mukrn
open ByteMemory PageTable Runs

/-- Every access to the page reaches the frame at that address. -/
def PmmCall.Direct (c : PmmCall) : Prop :=
  ∀ va, c.page ≤ va → va < c.page + 4096 → translate c.machine va = some va

theorem translate_low {h : Machine} {va : ℕ} (hva : va < 2 ^ 30)
    (hw : walk present h.mem va 3 h.pagingRoot = some va) : translate h va = some va := by
  have hc : va < 2 ^ 47 := by omega
  rw [translate, canonical, decide_eq_true hc, Bool.true_or, if_pos rfl, hw]

section Calls

variable {cfg : BootConfig} {own : ℕ → Prop} {c : PmmCall} {va : ℕ}

theorem PmmCall.Clear.address (h : c.Clear own) (h1 : c.page ≤ va) (h2 : va < c.page + 4096) :
    KernelAddress cfg own va := .inr (.inr ⟨c.page, h.1, h1, h2⟩)

/-- A call in a new address space. -/
theorem PmmCall.InCopy.direct (hc : c.InCopy) (hb : SparingBoot cfg own) (hclear : c.Clear own) :
    c.Direct := by
  intro va h1 h2
  have hlow := hb.low va (hclear.address h1 h2)
  refine translate_low hlow ?_
  rw [hc va (hclear.2 va h1 h2), templateWalk, if_pos ⟨by decide, by omega⟩, Nat.mod_eq_of_lt hlow]

/-- A call under the root that was active before. -/
theorem PmmCall.After.direct {sh : Shape} {h : Machine} (hc : c.After sh [] h)
    (hr : sh h.pagingRoot = some (h.pagingRoot, [])) (hb : SparingBoot cfg own)
    (hm : KernelMapped cfg own h.mem h.pagingRoot) (hclear : c.Clear own) : c.Direct := by
  obtain ⟨hroot, ms, hl, hw⟩ := hc
  intro va h1 h2
  have hva : KernelAddress cfg own va := hclear.address h1 h2
  have ht := hclear.2 va h1 h2
  rw [hl, List.nil_append] at ht
  refine translate_low (hb.low va hva) ?_
  rw [hroot, hw _ access_present _ hr va fun hv => ht hv.2, ← translation_target]
  exact (hm va hva).1

end Calls

/-- The allocator touches the frame it means in every call made under a process's page table: while
the first task is loaded, and in every run of sound steps that spare the kernel's pages and take no
others from the allocator. -/
theorem pmm_touches_frame {cfg : BootConfig} {own : ℕ → Prop} {x0 : System} (hg : GoodBoot cfg)
    (hk : kmain cfg = some x0) (hb : SparingBoot cfg own) :
    (∀ c ∈ bootCalls cfg, c.machine.pagingRoot ≠ kernelPml4Template → c.Clear own → c.Direct) ∧
    ∀ y, Reach step (SoundSparing cfg own) x0 y → ∀ i, y.phase ≠ .stopped →
      SoundSparing cfg own y i → ∀ d, y.kernel.currentTask = some d →
        ∀ c ∈ requestCalls y.kernel d i.request, c.Direct := by
  refine ⟨fun c hc hroot hclear => ?_, fun y hy i hp hi d hd c hc => ?_⟩
  · obtain ⟨use, ho, -⟩ := bootMachine_owned hg.map
    rcases elfCalls_sites ho hg.image hc with hafter | hcopy
    · exact absurd (hafter.1.trans (bootMachine_root cfg)) hroot
    · exact hcopy.direct hb hclear
  · obtain ⟨use, fl, hs⟩ := reach_safe hg hk (fun _ _ h => h.1) hy
    have hreach : Reachable y := ⟨cfg, x0, hk, hy.mono fun _ _ _ => trivial⟩
    have hsch := (hreach.scheduled hp hd).1
    have hroot := hs.root d hsch.lt
    have hm := reach_kernelMapped hg hk hb (fun _ _ h => h) hy d hsch.lt
    rw [← hsch.root] at hroot hm
    have hclear := (hi.2 d hd).2 c hc
    rcases requestCalls_sites hs hsch (hi.1 d hd) hc with hafter | hcopy
    · exact hafter.direct (shape_eq_some.mpr hroot) hb hm hclear
    · exact hcopy.direct hb hclear

section Sample

/-- A thread of the sample boot gives its stack page back at its own address. -/
theorem pmm_touches_frame_sample : ∃ x0 y, kmain (sampleConfig sampleMap) = some x0 ∧
    Reach step (SoundSparing (sampleConfig sampleMap) samplePages) x0 y ∧
    SoundSparing (sampleConfig sampleMap) samplePages y (.trap quietPorts (.call 0 0 0 0 0)) ∧
    ∃ c ∈ requestCalls y.kernel 1 (Input.trap quietPorts (.call 0 0 0 0 0)).request,
      c.page = 0x14E000 ∧ c.Direct := by
  obtain ⟨x, y, r, use, fl, hk, -, -, hstep, hyp, hty, -, -, hstack, hcode, -, hsch⟩ :=
    sample_thread
  have hwait : (y.kernel.tasks 1).waitIdx = none :=
    congrFun (congrArg TaskTable.waitIdx (Option.some.inj hty).symm) 1
  have hclone : SoundSparing (sampleConfig sampleMap) samplePages x
      (.trap quietPorts (.call 21 0 0 0 0)) :=
    ⟨fun _ _ => trivial, sparing_clone (sample_first hk)⟩
  have hexit : SoundSparing (sampleConfig sampleMap) samplePages y
      (.trap quietPorts (.call 0 0 0 0 0)) := by
    refine ⟨fun d hd => ?_, sparing_exit hsch.current (.inr hcode)
      (by rw [hstack]; exact (by decide : 0x14E000 < 0x150000))⟩
    obtain rfl := Option.some.inj (hsch.current.symm.trans hd)
    exact ⟨.inr hcode, fun w _ hw => by cases hwait.symm.trans hw⟩
  have hmem : PmmCall.mk y.kernel.machine 0x14E000 [] ∈
      requestCalls y.kernel 1 (Input.trap quietPorts (.call 0 0 0 0 0)).request := by
    change _ ∈ taskCalls y.kernel.machine (y.kernel.tasks 1)
    rw [taskCalls_thread (.inr hcode), hstack]
    exact List.mem_singleton_self _
  have hrun := Reach.tail .refl hclone hstep
  exact ⟨x, y, hk, hrun, hexit, _, hmem, rfl,
    (pmm_touches_frame sample_bootable.goodBoot hk sample_sparingBoot).2 _ hrun _
      (by rw [hyp]; simp) hexit 1 hsch.current _ hmem⟩

/-- The end of a system call with more than one task: the caller yields. -/
private theorem step_yields {x : System} {io : Ports} {r r0 : Registers} {rax c : ℕ} {k : Kernel}
    (hp : x.phase = .user r0) (hr : r.intNo = 0x80)
    (hk : syscallHandler x.kernel io r.syscall = some (.done rax k)) (hn : 1 < k.numTasks)
    (hc : k.currentTask = some c) :
    ∃ y r1, step x (.trap io r) = some y ∧ y.phase = .user r1 ∧ Finish k y ∧
      y.kernel.table = k.table.reschedule c := by
  have hf := afterSyscall_finish k { r with rax := .ofNat rax }
  have hs := step_syscall hp hr hk
  rw [afterSyscall_eq hn hc, dispatch_eq] at hs hf
  exact ⟨_, _, hs, rfl, hf, table_reschedule k c _⟩

/-- The thread maps a page at the address of its own kernel stack. When it is killed, the link of
the free list is written to the frame of that page. -/
theorem kill_misses_frame : ∃ x y z g, kmain (sampleConfig sampleMap) = some x ∧
    step x (.trap quietPorts (.call 21 0 0 0 0)) = some y ∧
    step y (.trap quietPorts (.call 11 0x14E000 4096 2 0)) = some z ∧
    z.kernel.currentTask = some 0 ∧
    requestCalls z.kernel 0 (Input.trap quietPorts (.call 13 8 0 0 0)).request =
      [⟨z.kernel.machine, 0x14E000, []⟩] ∧
    translate z.kernel.machine 0x14E000 = some g ∧ g ≠ 0x14E000 := by
  obtain ⟨x, y, r, use, fl, hk, -, -, hstep, hyp, hty, hs, hlen, hstack, hcode, hroots, hsch⟩ :=
    sample_thread
  have hty := (Option.some.inj hty).symm
  have hn : y.kernel.numTasks = 2 := congrArg TaskTable.num hty
  obtain ⟨g, fl, rfl⟩ := List.exists_cons_of_length_pos (show 0 < fl.length by omega)
  rw [List.length_cons] at hlen
  have hne : g ≠ 0x14E000 := by
    rintro rfl
    have hu := hs.stack 1 hsch.lt (.inr hsch.current)
    rw [hstack, hs.owned.head.1] at hu
    simp at hu
  obtain ⟨res, h, hsys, hh⟩ := sysMmap_one hs.owned hsch.current
    (by decide : pageCursor (rangeStart 0x14E000) (rangeEnd 0x14E000 4096) = [0x14E000])
  obtain ⟨z, r1, hz, hzp, hf, htz⟩ := step_yields (r := .call 11 0x14E000 4096 2 0)
    (k := { y.kernel with machine := h }) hyp rfl (congrArg (fun p => some (returnInt p)) hsys)
    (show 1 < y.kernel.numTasks by omega) hsch.current
  replace htz : z.kernel.table = y.kernel.table.reschedule 1 := htz
  rw [hty] at htz
  have hcz : z.kernel.currentTask = some 0 := congrArg TaskTable.current htz
  have hfind : z.kernel.findLive 8 = some 1 := by
    rw [← table_findLive, htz]
    rfl
  have hreach : Reachable z := ⟨_, x, hk, .tail (.tail .refl trivial hstep) trivial hz⟩
  have hrootz := (hreach.scheduled (by rw [hzp]; simp) hcz).1.root
  rw [hf.keepsSlots.pml4Phys 0] at hrootz
  replace hrootz := hrootz.trans hroots
  obtain ⟨use1, fl1, hb, hmapped⟩ := mapOne_spec (v := 0x14E000)
    (hs.owned.switch (y.kernel.tasks 1).pml4Phys) (hs.root 1 hsch.lt) (by decide : 7 < 128)
    (by decide)
  have hsk : Safe use1 fl1 { y.kernel with machine := h } := by
    rw [hh]
    exact hs.took (hb.owned.switch _) hb.took
  obtain ⟨-, hw⟩ := hsk.finish (fun d hd => by
    obtain rfl := Option.some.inj (hsch.current.symm.trans hd)
    exact hsch.lt) hf
  have hwalk : walk present z.kernel.machine.mem 0x14E000 3 (y.kernel.tasks 1).pml4Phys =
    some g := by
    have hone := hmapped (by omega) 0x14E000 rfl
    rw [show 0x14E000 % 4096 = 0 from rfl, Nat.add_zero] at hone
    rw [hw _ access_present _ (shape_eq_some.mpr (hsk.root 1 hsch.lt)) _ id]
    change walk present h.mem 0x14E000 3 _ = _
    rw [hh, pagingSwitch_mem]
    exact hone
  refine ⟨x, y, z, g, hk, hstep, hz, hcz, ?_, ?_, hne⟩
  · have hstackz : (z.kernel.tasks 1).stackPhys = 0x14E000 :=
      (hf.keepsSlots.stackPhys 1).trans hstack
    have hthread : (z.kernel.tasks 1).IsThread := by
      obtain ⟨st, rsp, he⟩ := hf.sameTable.tasks 1
      rw [he]
      exact .inr hcode
    change ((z.kernel.findLive 8).map fun i => taskCalls z.kernel.machine (z.kernel.tasks i)).getD
      [] = _
    rw [hfind, Option.map_some, Option.getD_some, taskCalls_thread hthread, hstackz]
    rfl
  · rw [translate, if_pos (by decide), hrootz, hwalk]

end Sample

end Mukrn
