import Mukrn.Table.Identity

/-! A second process. The kernel image can be read in every address space, so the first task of the
sample boot spawns a copy of itself from there. -/
namespace Mukrn
open ByteMemory PageTable

/-- The addresses below the program and its stack stay those of the machine. -/
theorem NewSpace.identity {ms : List (ℕ × ℕ)} {m : Mem} {r va : ℕ} (hn : NewSpace ms m r)
    (hms : ∀ p ∈ ms, p.1 / 2 ^ 21 = 2) (hva : va < 2 ^ 21) : walk present m va 3 r = some va := by
  have hfree : ¬ TouchedBy ms va := by
    rintro ⟨p, hp, ht⟩
    have hp := hms p hp
    have htrail : trail va 3 = trail p.1 3 := by
      rcases ht with ht | ⟨-, ht⟩
      · exact (trail_last ht).1
      · exact ht
    have := trail_three_inj (by omega) (by omega) htrail
    omega
  rw [hn.kept present access_present va hfree, templateWalk, if_pos ⟨by decide, by omega⟩,
    Nat.mod_eq_of_lt (by omega)]

theorem translate_identity {h : Machine} {va : ℕ}
    (hw : walk present h.mem va 3 h.pagingRoot = some va)
    (hva : va < 2 ^ 47) : translate h va = some va := by
  rw [translate, if_pos, hw]
  simp only [canonical, Bool.or_eq_true, decide_eq_true_eq]
  exact .inl (by omega)

section

variable {use : ℕ → Use} {fl : List ℕ} {h : Machine} {f : ℕ}

/-- A file in the last page of the kernel image is readable whatever a free page holds. -/
theorem Owned.readable_image (ho : Owned use (f :: fl) h)
    (hr : use h.pagingRoot = .table h.pagingRoot []) (hnone : use 0x10F000 = .none)
    (hw : ∀ va < 2 ^ 21, walk present h.mem va 3 h.pagingRoot = some va) {src size : ℕ}
    (hsrc : 0x10F000 ≤ src) (hend : src + size ≤ 0x110000) : Readable h f src src size := by
  obtain ⟨hfree, -⟩ := ho.head
  constructor
  · intro i hi he
    rw [show (src + i) / 4096 * 4096 = 0x10F000 by omega] at he
    rw [he, hfree] at hnone
    cases hnone
  · intro m hm i hi
    rw [Nat.mod_eq_of_lt (by omega)]
    refine translate_identity (h := { h with mem := m }) ?_ (by omega)
    have hagree : WalksAgree (shape use) (fun _ _ => False) h.mem m := by
      refine ho.walks_sameOutside hm (fun g hg r p => ?_) _
      rw [List.mem_singleton.mp hg, hfree]
      exact nofun
    exact (hagree present access_present _ (shape_eq_some.mpr hr) _ id).trans (hw _ (by omega))

end

/-- A second process runs and the first task waits for its turn. They have address spaces of their
own, in both of which the kernel image is where it is. -/
structure TwoProcesses (s : Kernel) : Prop where
  current : s.currentTask = some 1
  num : s.numTasks = 2
  first : (s.tasks 0).state = .ready
  roots : (s.tasks 0).pml4Phys ≠ (s.tasks 1).pml4Phys
  identity : ∀ i < 2, ∀ va < 2 ^ 21, walk present s.machine.mem va 3 (s.tasks i).pml4Phys = some va
  waiters : s.futexWaiters = []
  mail : (s.tasks 1).ipcCount = 0
  heap : s.heapBrk = 0x600000

/-- At the start no one waits on a futex and the break is where it is initially. -/
theorem kmain_fresh {cfg : BootConfig} {x : System} (hk : kmain cfg = some x) :
    x.kernel.futexWaiters = [] ∧ x.kernel.heapBrk = 0x600000 := by
  obtain ⟨res, hc, rfl⟩ := Option.map_eq_some_iff.mp hk
  have hcreation := taskCreate_creation hc
  have hstart (s : Kernel) : (schedulerStart s).kernel.futexWaiters = s.futexWaiters ∧
      (schedulerStart s).kernel.heapBrk = s.heapBrk := by
    unfold schedulerStart
    split <;> exact ⟨rfl, rfl⟩
  rw [(hstart _).1, (hstart _).2]
  cases hcreation with
  | failed => exact ⟨rfl, rfl⟩
  | added => exact ⟨rfl, rfl⟩

theorem dispatched_heapBrk (s : Kernel) (n : ℕ) : (dispatched s n).heapBrk = s.heapBrk := rfl

theorem yieldCaller_heapBrk (s : Kernel) (c : ℕ) (r : Registers) :
    (yieldCaller s c r).heapBrk = s.heapBrk := by
  unfold yieldCaller
  dsimp only
  split <;> rfl

/-- The first task of the sample boot runs, with `f` the first of the free frames, and its program
is still in the last page of the kernel image. -/
structure FirstTask (use : ℕ → Use) (f : ℕ) (fl : List ℕ) (s : Kernel) : Prop where
  safe : Safe use (f :: fl) s
  table : s.table = .boot
  room : 38 ≤ fl.length
  root : use s.machine.pagingRoot = .table s.machine.pagingRoot []
  identity : ∀ va < 2 ^ 21, walk present s.machine.mem va 3 s.machine.pagingRoot = some va
  idle : use 0x10F000 = .none
  bytes : ∀ i < 128, s.machine.mem (0x10F000 + i) = sampleImage 0x10F000 (0x10F000 + i)
  low : ∀ g ∈ f :: fl, g < 0x150000

theorem sample_firstTask : ∃ x r use f fl, kmain (sampleConfig sampleMap) = some x ∧
    x.phase = .user r ∧ FirstTask use f fl x.kernel := by
  obtain ⟨x, r, use, fl, hk, hp, ht, hs, -, hlen, ⟨f0, m0, ms0, hspace, hf0, hbytes, hv, -⟩,
    -, himage⟩ := sample_bootable.starts
  have hall : (usablePages (sampleConfig sampleMap).kernelEnd
      (sampleConfig sampleMap).e820).length = 64 := by decide
  have hc : x.kernel.currentTask = some 0 := congrArg TaskTable.current ht
  have hn : x.kernel.numTasks = 1 := congrArg TaskTable.num ht
  have hx : Reachable x := ⟨_, x, hk, .refl⟩
  have hroot := (hx.scheduled (by rw [hp]; exact fun h => by cases h) hc).1.root
  cases fl with
  | nil =>
    rw [List.length_nil] at hlen
    omega
  | cons f fl =>
    rw [List.length_cons] at hlen
    obtain ⟨use', fl', hs', -, hnone⟩ := kmain_spaces sample_bootable.goodBoot hk
    obtain rfl := hs'.owned.chain.unique hs.owned.chain
    refine ⟨x, r, use, f, fl, hk, hp, hs, ht, by omega, ?_, fun va hva => ?_,
      (himage 0 (by decide)).2, fun i hi => (himage i hi).1, fun g hg => ?_⟩
    · rw [hroot]
      exact hs.root 0 (by omega)
    · rw [hroot]
      exact hspace.identity (fun p hp =>
        sample_pages hf0.le (fun i hi => hbytes i (hi.trans (by decide))) (hv p hp)) hva
    · by_contra hge
      have hfree := (hs'.owned.free g).mp hg
      rw [hnone g (by omega) fun hmem => hge (sample_usable g hmem)] at hfree
      cases hfree

namespace FirstTask

variable {use : ℕ → Use} {f : ℕ} {fl : List ℕ} {s : Kernel} {size : ℕ}

theorem numTasks (hc : FirstTask use f fl s) : s.numTasks = 1 := congrArg TaskTable.num hc.table

theorem frame_le (hc : FirstTask use f fl s) : f ≤ 2 ^ 64 - 4096 := by
  have := hc.safe.owned.head.2
  omega

theorem readable (hc : FirstTask use f fl s) (hsize : size ≤ 128) :
    Readable s.machine f 0x10F000 0x10F000 size :=
  hc.safe.owned.readable_image hc.root hc.idle hc.identity le_rfl (by omega)

theorem magic (hc : FirstTask use f fl s) : load s.machine.mem 0x10F000 4 = elfMagic := by
  rw [load_congr fun i hi => hc.bytes i (hi.trans (by decide))]
  decide

end FirstTask

/-- The first task of the sample boot spawns the file in the kernel image. -/
theorem sample_spawned : ∃ x y r use fl, kmain (sampleConfig sampleMap) = some x ∧
    step x (.trap quietPorts (.call 26 0x10F000 128 0 0)) = some y ∧ y.phase = .user r ∧
    Safe use fl y.kernel ∧ 15 ≤ fl.length ∧ TwoProcesses y.kernel := by
  obtain ⟨x, r, use, f, fl, hk, hp, hfirst⟩ := sample_firstTask
  have hs := hfirst.safe
  have hid0 := hfirst.identity
  have hmagic := hfirst.magic
  have hlen := hfirst.room
  have hflt := hfirst.frame_le
  have hmem := hfirst.bytes
  have hc : x.kernel.currentTask = some 0 := congrArg TaskTable.current hfirst.table
  have hn := hfirst.numTasks
  have hx : Reachable x := ⟨_, x, hk, .refl⟩
  have hroot := (hx.scheduled (by rw [hp]; exact fun h => by cases h) hc).1.root
  obtain ⟨h', kstack, root, codePages, m, ms, use', fl', hcreate, hs', hlen', hfree, hspace, hbytes,
    hv, -, -, -, -, hwalks, -⟩ := createElf_loads hs (hfirst.readable le_rfl) (by decide)
      (by decide) hmagic
      (n := 1) (fun m hm => sample_loadable hflt fun i hi =>
        (hm i (by omega)).trans (hmem i (by omega))) (by omega)
      (by rw [hn]; decide) (fun h => absurd h.1 (by decide))
      (show findReuse x.kernel 0 = none from rfl)
  have hms (p : ℕ × ℕ) (hp : p ∈ ms) : p.1 / 2 ^ 21 = 2 :=
    sample_pages hflt (fun i hi => (hbytes i (by omega)).trans (hmem i (by omega))) (hv p hp)
  have hne : (x.kernel.tasks 0).pml4Phys ≠ root := by
    intro he
    have hu := hs.root 0 (by omega)
    rw [he, (hs.owned.free root).mp (List.mem_cons_of_mem f hfree)] at hu
    cases hu
  have hspawn : sysSpawnAt x.kernel 0x10F000 128 =
      some (addTask x.kernel h' none 0 kstack root 0x400000 codePages) := by
    have hread : readUser32 x.kernel.machine 0x10F000 = some elfMagic := by
      rw [readUser32_eq fun i hi => ?_, hmagic]
      rw [Nat.mod_eq_of_lt (by omega)]
      exact translate_identity (hid0 _ (by omega)) (by omega)
    rw [sysSpawnAt, if_neg (by decide), if_pos (by decide), hread, Option.bind_some, if_pos rfl,
      hcreate]
  obtain ⟨pid, k, hadd, hkn, hkc, hkm, hk0, hk1, hkw, hkh⟩ : ∃ pid k,
      addTask x.kernel h' none 0 kstack root 0x400000 codePages = (pid, k) ∧ k.numTasks = 2 ∧
      k.currentTask = some 0 ∧ k.machine = h' ∧ k.tasks 0 = x.kernel.tasks 0 ∧
      ((k.tasks 1).state = .ready ∧ (k.tasks 1).pml4Phys = root ∧ (k.tasks 1).ipcCount = 0) ∧
      k.futexWaiters = x.kernel.futexWaiters ∧ k.heapBrk = x.kernel.heapBrk := by
    refine ⟨_, _, rfl, congrArg (· + 1) hn, hc, rfl, ?_, ?_, rfl, rfl⟩
    · simp [hn]
    · simp [hn, newTask, ipcInitTask]
  rw [hadd] at hs' hspawn
  have hcall : syscallHandler x.kernel quietPorts (Registers.call 26 0x10F000 128 0 0).syscall =
      some (.done (toU64 pid) k) := by
    change (sysSpawnAt x.kernel 0x10F000 128).map returnInt = _
    rw [hspawn]
    rfl
  have hstep := step_syscall hp rfl hcall
  generalize
    ({ Registers.call 26 0x10F000 128 0 0 with rax := .ofNat (toU64 pid) } : Registers) = r1
    at hstep
  have hsk : Safe use' fl' k := hs'
  have hcn (c : ℕ) (hkc' : k.currentTask = some c) : c < k.numTasks := by
    obtain rfl := Option.some.inj (hkc.symm.trans hkc')
    omega
  have hfin := afterSyscall_finish k r1
  obtain ⟨hsy, hwy⟩ := hsk.finish hcn hfin
  have hsame := hfin.sameTable
  rw [afterSyscall_eq (by omega) hkc] at hstep hsy hwy hsame
  have hnum : (yieldCaller k 0 r1).numTasks = 2 := (yieldCaller_sameTable k 0 r1).numTasks.trans hkn
  have hst (j : ℕ) := yieldCaller_state k 0 j r1
  have hnext : nextTask (yieldCaller k 0 r1) 0 = 1 := by
    rcases nextTask_spec (s := yieldCaller k 0 r1) (c := 0) (by omega) (by omega) with h | ⟨-, h⟩
    · omega
    · refine absurd ?_ (h 1 (by omega) (by decide))
      rw [hst, if_neg (fun h => absurd h.1 (by decide)), hk1.1]
  rw [hnext] at hstep hsy hwy hsame
  have hrun : (x.kernel.tasks 0).state = .running := congrArg (·.state 0) hfirst.table
  have hphase : (dispatch (yieldCaller k 0 r1) 1).system.phase =
      .user (loadFrame (yieldCaller k 0 r1).machine.mem ((yieldCaller k 0 r1).tasks 1).rsp) := by
    rw [dispatch_eq]
    rfl
  refine ⟨x, _, _, use', fl', hk, hstep, hphase, hsy, by omega, ?_⟩
  have hroots (i : ℕ) : ((dispatch (yieldCaller k 0 r1) 1).system.kernel.tasks i).pml4Phys =
      (k.tasks i).pml4Phys := by
    obtain ⟨st, rsp, he⟩ := hsame.tasks i
    rw [he]
  obtain ⟨hw0, hh0⟩ := kmain_fresh hk
  refine ⟨?_, hsame.numTasks.trans hkn, ?_, ?_, ?_,
    hsame.futexWaiters.trans (hkw.trans hw0), ?_, ?_⟩
  · rw [dispatch_kernel]
    rfl
  · rw [dispatch_kernel]
    simp only [dispatched, Kernel.setState_apply]
    rw [if_neg (by decide), hst, if_pos]
    refine ⟨rfl, ?_⟩
    rw [Runnable, hk0, hrun]
    decide
  · rw [hroots, hroots, hk0, hk1.2.1]
    exact hne
  · intro i hi va hva
    have htab := hsk.root i (by omega)
    rw [hroots, hwy present access_present _ (shape_eq_some.mpr htab) va id, hkm]
    rcases Nat.le_one_iff_eq_zero_or_eq_one.mp (Nat.le_of_lt_succ hi) with rfl | rfl
    · have htab0 := hs.root 0 (by omega)
      rw [hk0, hwalks present access_present _ (shape_eq_some.mpr htab0) va id, ← hroot]
      exact hid0 va hva
    · rw [hk1.2.1]
      exact hspace.identity hms hva
  · obtain ⟨st, rsp, he⟩ := hsame.tasks 1
    rw [he]
    exact hk1.2.2
  · rw [dispatch_kernel, dispatched_heapBrk, yieldCaller_heapBrk, hkh, hh0]

end Mukrn
