import Mukrn.Memory.Spawn

/-! The staged copy of a program: which bytes `create_elf` writes when it copies the file to the
pages it has taken, and which bytes of the copy it reads when it parses the headers. -/
namespace Mukrn
open ByteMemory PageTable

/-- The frames that the next `n` allocations return, read off the free list. A frame is cleared
when it is taken. -/
def nextFrames : Mem → ℕ → ℕ → List ℕ
  | _, _, 0 => []
  | m, top, n + 1 =>
    if top = 0 then []
    else top :: nextFrames (fill m top 4096 fun _ => 0) (load64 m top) n

/-- From the first frame up to `size` bytes behind its start, every frame that ends before that is
followed by another one without a gap. -/
def NoGap (frames : List ℕ) (size : ℕ) : Prop :=
  ∀ f ∈ frames, frames.headD 0 ≤ f → f + 4096 < frames.headD 0 + size →
    ∃ g ∈ frames, f < g ∧ g ≤ f + 4096

/-- The addresses that the copy to the staging buffer stores to, under the active root. -/
def stagedTo (binary buf : ℕ) : ℕ → ℕ → Machine → List ℕ
  | 0, _, _ => []
  | n + 1, i, h =>
    match readUser h binary i, translate h ((buf + i) % 2 ^ 64) with
    | some b, some a =>
      a :: stagedTo binary buf n (i + 1) { h with mem := Function.update h.mem a b }
    | _, _ => []

/-- Whatever the frames taken hold, the active root maps them and the buffer to themselves. -/
def BufferDirect (h : Machine) (frames : List ℕ) (size : ℕ) : Prop :=
  ∀ m, (∀ a, ¬ InFrames frames a → m a = h.mem a) →
    ∀ a, InFrames frames a ∨ frames.headD 0 ≤ a ∧ a < frames.headD 0 + size →
      translate { h with mem := m } a = some a

section Frames

variable {frames pages : List ℕ} {h h1 : Machine} {n size : ℕ}

/-- Staging takes the next frames of the free list. -/
theorem stagePages_frames (hs : stagePages n h pages = (some frames, h1)) :
    frames = pages ++ nextFrames h.mem h.freeStack n ∧ frames.length = pages.length + n ∧
      ∀ a, ¬ InFrames frames a → h1.mem a = h.mem a := by
  induction n generalizing h pages with
  | zero =>
    obtain ⟨hpages, rfl⟩ := Prod.mk.inj hs
    obtain rfl := Option.some.inj hpages
    simp [nextFrames]
  | succ n ih =>
    by_cases h0 : h.freeStack = 0
    · rw [stagePages, pmmAllocPage, if_pos h0] at hs
      cases hs
    · rw [stagePages, pmmAllocPage, if_neg h0] at hs
      simp only [if_neg h0] at hs
      obtain ⟨heq, hlen, hout⟩ := ih hs
      rw [nextFrames, if_neg h0]
      refine ⟨?_, ?_, fun a ha => ?_⟩
      · rw [heq, List.append_assoc]
        rfl
      · rw [hlen, List.length_append, List.length_singleton]
        omega
      · have htop : h.freeStack ∈ frames := by
          rw [heq]
          simp
        have hn : a < h.freeStack ∨ h.freeStack + 4096 ≤ a := by
          by_contra hn
          exact ha ⟨_, htop, by omega, by omega⟩
        exact (hout a ha).trans (h.take_outside hn)

theorem noGap_of_inside (hin : ∀ i < size, InFrames frames (frames.headD 0 + i)) :
    NoGap frames size := by
  intro f hf hle hlt
  obtain ⟨g, hg, h1, h2⟩ := hin (f + 4096 - frames.headD 0) (by omega)
  exact ⟨g, hg, by omega, by omega⟩

/-- Without gaps every byte behind the first frame's start is in some frame, by induction on its
distance. -/
theorem NoGap.inside (hgap : NoGap frames size) (hne : 0 < size → frames ≠ []) :
    ∀ i < size, InFrames frames (frames.headD 0 + i) := by
  have hstep : ∀ i < size, ∃ f ∈ frames, frames.headD 0 ≤ f ∧ f ≤ frames.headD 0 + i ∧
      frames.headD 0 + i < f + 4096 := by
    intro i
    induction i with
    | zero =>
      intro hi
      obtain ⟨f, fs, rfl⟩ := List.exists_cons_of_ne_nil (hne hi)
      refine ⟨f, List.mem_cons_self, ?_, ?_, ?_⟩ <;> simp only [List.headD_cons] <;> omega
    | succ i ih =>
      intro hi
      obtain ⟨f, hf, hle, h1, h2⟩ := ih (by omega)
      by_cases hin : frames.headD 0 + (i + 1) < f + 4096
      · exact ⟨f, hf, hle, by omega, hin⟩
      · obtain ⟨g, hg, hfg, hgf⟩ := hgap f hf hle (by omega)
        exact ⟨g, hg, by omega, by omega, by omega⟩
  intro i hi
  obtain ⟨f, hf, -, h1, h2⟩ := hstep i hi
  exact ⟨f, hf, h1, h2⟩

end Frames

section Copy

variable {h g h2 : Machine} {frames : List ℕ} {binary size : ℕ} (hd : BufferDirect h frames size)
include hd

/-- As long as only frames taken have been written, the next byte goes to its own address. -/
theorem BufferDirect.translate (hroot : g.pagingRoot = h.pagingRoot)
    (hm : ∀ a, ¬ InFrames frames a → g.mem a = h.mem a) {i : ℕ} (hi : i < size) :
    translate g ((frames.headD 0 + i) % 2 ^ 64) = some (frames.headD 0 + i) := by
  have hself := hd g.mem hm (frames.headD 0 + i) (.inr ⟨by omega, by omega⟩)
  have hlt : frames.headD 0 + i < 2 ^ 64 := by
    rw [Mukrn.translate] at hself
    split at hself
    next hc =>
      simp only [canonical, Bool.or_eq_true, Bool.and_eq_true, decide_eq_true_eq] at hc
      omega
    next => cases hself
  rw [Nat.mod_eq_of_lt hlt, ← hself]
  simp only [Mukrn.translate, hroot]

/-- The copy from byte `i` on stores to every address up to the first one outside the frames. -/
theorem stagedTo_spec {k i : ℕ} (hk : i + k = size) (hroot : g.pagingRoot = h.pagingRoot)
    (hm : ∀ a, ¬ InFrames frames a → g.mem a = h.mem a)
    (hc : Active.stageCopy binary (frames.headD 0) k i g = some h2) :
    (∀ j, i ≤ j → j < size → (∀ l, i ≤ l → l < j → InFrames frames (frames.headD 0 + l)) →
      frames.headD 0 + j ∈ stagedTo binary (frames.headD 0) k i g) ∧
    ((∀ j, i ≤ j → j < size → InFrames frames (frames.headD 0 + j)) →
      (∀ a ∈ stagedTo binary (frames.headD 0) k i g, InFrames frames a) ∧
        ∀ a, ¬ InFrames frames a → h2.mem a = g.mem a) := by
  induction k generalizing g i with
  | zero =>
    obtain rfl := Option.some.inj hc
    exact ⟨fun j h1 h2 => by omega, fun _ => ⟨fun a ha => (by cases ha), fun _ _ => rfl⟩⟩
  | succ k ih =>
    have htr := hd.translate hroot hm (show i < size by omega)
    obtain ⟨b, hb, hc⟩ := Option.bind_eq_some_iff.mp hc
    rw [writeUser, htr, Option.map_some, Option.bind_some] at hc
    have hstep (hin : InFrames frames (frames.headD 0 + i)) (a : ℕ) (ha : ¬ InFrames frames a) :
        Function.update g.mem (frames.headD 0 + i) b a = g.mem a :=
      Function.update_of_ne (by rintro rfl; exact ha hin) ..
    have hnext (hin : InFrames frames (frames.headD 0 + i)) := ih (by omega)
      (g := { g with mem := Function.update g.mem (frames.headD 0 + i) b }) hroot
      (fun a ha => (hstep hin a ha).trans (hm a ha)) hc
    rw [stagedTo, hb, htr]
    refine ⟨fun j h1 h2 hin => ?_, fun hin => ?_⟩
    · rcases Nat.eq_or_lt_of_le h1 with rfl | h1
      · exact List.mem_cons_self
      · exact List.mem_cons_of_mem _ ((hnext (hin i le_rfl h1)).1 j h1 h2
          fun l hl => hin l (by omega))
    · have hi := hin i le_rfl (by omega)
      obtain ⟨hlist, hkeep⟩ := (hnext hi).2 fun j hj => hin j (by omega)
      exact ⟨List.forall_mem_cons.mpr ⟨hi, hlist⟩, fun a ha => (hkeep a ha).trans (hstep hi a ha)⟩

/-- The copy ends where the file can be read whatever the frames hold, and only its last byte may
lie outside them. -/
theorem stageCopy_active {k i : ℕ} (hk : i + k = size) (hroot : g.pagingRoot = h.pagingRoot)
    (hm : ∀ a, ¬ InFrames frames a → g.mem a = h.mem a)
    (hread : ∀ g : Machine, g.pagingRoot = h.pagingRoot →
      (∀ a, ¬ InFrames frames a → g.mem a = h.mem a) → ∀ j < size, ∃ b,
      readUser g binary j = some b)
    (hin : ∀ j, j + 1 < size → InFrames frames (frames.headD 0 + j)) :
    ∃ h2, Active.stageCopy binary (frames.headD 0) k i g = some h2 := by
  induction k generalizing g i with
  | zero => exact ⟨g, rfl⟩
  | succ k ih =>
    obtain ⟨b, hb⟩ := hread g hroot hm i (by omega)
    rw [Active.stageCopy, hb, Option.bind_some, writeUser, hd.translate hroot hm (by omega),
      Option.map_some, Option.bind_some]
    cases k with
    | zero => exact ⟨_, rfl⟩
    | succ k =>
      refine ih (g := { g with mem := Function.update g.mem (frames.headD 0 + i) b })
        (by omega) hroot
        fun a ha => ?_
      refine Eq.trans (Function.update_of_ne ?_ ..) (hm a ha)
      rintro rfl
      exact ha (hin i (by omega))

end Copy

/-- Where the active root maps the staging buffer to itself, the copy of a file to it stays in the
frames taken for it, and changes nothing else, exactly when these frames follow each other in
memory. -/
theorem staging_inside_iff {h h1 h2 : Machine} {pages : List ℕ} {binary size : ℕ}
    (hs : stagePages ((size + 4095) / 4096) h [] = (some pages, h1))
    (hd : BufferDirect h pages size)
    (hc : Active.stageCopy binary (pages.headD 0) size 0 h1 = some h2) :
    ((∀ a ∈ stagedTo binary (pages.headD 0) size 0 h1, InFrames pages a) ∧
      ∀ a, ¬ InFrames pages a → h2.mem a = h1.mem a) ↔
      NoGap (nextFrames h.mem h.freeStack ((size + 4095) / 4096)) size := by
  obtain ⟨heq, hlen, hout⟩ := stagePages_frames hs
  have hroot := stagePages_root ((size + 4095) / 4096) h []
  rw [hs] at hroot
  rw [List.nil_append] at heq
  rw [← heq]
  obtain ⟨hreach, hinside⟩ := stagedTo_spec hd (Nat.zero_add size) hroot hout hc
  constructor
  · intro hin
    refine noGap_of_inside fun i => ?_
    induction i using Nat.strong_induction_on with
    | _ i ih =>
      exact fun hi => hin.1 _ (hreach i (Nat.zero_le i) hi fun l _ hl => ih l hl (by omega))
  · intro hgap
    have hin := hgap.inside fun hpos hnil => by
      rw [hnil, List.length_nil] at hlen
      omega
    exact hinside fun j _ hj => hin j hj

/-- A file of 4097 bytes in the kernel image is staged before the first task is made, under the boot
page table, which maps the first GiB to itself. -/
private theorem boot_stages (e820 : List E820Entry) {p q : ℕ} (hg : GoodMap e820)
    (hp : (usablePages 0x110000 e820).reverse.tail.take 2 = [p, q])
    (hlow : ∀ f ∈ [p, q], 0x4000 ≤ f ∧ f + 8192 ≤ 2 ^ 30) :
    ∃ h1 h2, stagePages 2 (bootMachine (sampleConfig e820)) [] = (some [p, q], h1) ∧
      BufferDirect (bootMachine (sampleConfig e820)) [p, q] 4097 ∧
      h1.pagingRoot = (bootMachine (sampleConfig e820)).pagingRoot ∧
      Active.stageCopy 0x100000 p 4097 0 h1 = some h2 := by
  obtain ⟨use, ho, -⟩ := @bootMachine_owned (sampleConfig e820) hg
  have hself (g : Machine) (hr : g.pagingRoot = (bootMachine (sampleConfig e820)).pagingRoot)
      (hm : ∀ a, ¬ InFrames [p, q] a → g.mem a = (bootMachine (sampleConfig e820)).mem a) {a : ℕ}
      (ha : a < 2 ^ 30) : translate g a = some a := by
    refine translate_boot (ho.template.congr fun f hf a h1 h2 => hm a ?_)
      (hr.trans (bootMachine_root _)) ha
    rintro ⟨f', hf', h3, h4⟩
    have := hlow f' hf'
    omega
  have hd : BufferDirect (bootMachine (sampleConfig e820)) [p, q] 4097 := by
    intro m hm a ha
    refine hself { bootMachine (sampleConfig e820) with mem := m } rfl hm ?_
    rcases ha with ⟨f, hf, -, h2⟩ | ⟨-, h2⟩
    · have := hlow f hf
      omega
    · have := hlow p (by simp)
      change a < p + 4097 at h2
      omega
  rcases stagePages_owned ho (List.forall_mem_nil _) .nil 2 with
    ⟨hshort, -⟩ | ⟨h1, taken, use', fl', hst, hlen, hfl, -⟩
  · have hlen := congrArg List.length hp
    rw [List.length_take, List.length_cons, List.length_singleton] at hlen
    change (usablePages 0x110000 e820).reverse.tail.length < 2 at hshort
    omega
  · change (usablePages 0x110000 e820).reverse.tail = taken ++ fl' at hfl
    rw [hfl, ← hlen, List.take_left] at hp
    rw [hp, List.nil_append] at hst
    obtain ⟨-, -, hout⟩ := stagePages_frames hst
    have hroot := stagePages_root 2 (bootMachine (sampleConfig e820)) []
    rw [hst] at hroot
    obtain ⟨h2, hcopy⟩ : ∃ h2, Active.stageCopy 0x100000 p 4097 0 h1 = some h2 :=
      stageCopy_active hd (Nat.zero_add 4097) hroot hout
      (fun g hr hm j hj => ⟨g.mem (0x100000 + j), by
        rw [readUser, Nat.mod_eq_of_lt (by omega), hself g hr hm (by omega), Option.map_some]⟩)
      fun j hj => ⟨p, List.mem_cons_self, Nat.le_add_right p j, by
        change p + j < p + 4096
        omega⟩
    exact ⟨h1, h2, hst, hd, hroot, hcopy⟩

/-- Memory reported from the top down, so that the free list ascends. -/
def ascendingMap : List E820Entry :=
  [⟨0x201000, 0x1000, 1⟩, ⟨0x200000, 0x1000, 1⟩, ⟨0x300000, 0x1000, 1⟩]

theorem staging_inside_sample : ∃ h1 h2,
    stagePages 2 (bootMachine (sampleConfig ascendingMap)) [] = (some [0x200000, 0x201000], h1) ∧
    Active.stageCopy 0x100000 0x200000 4097 0 h1 = some h2 ∧
    ∀ a ∈ stagedTo 0x100000 0x200000 4097 0 h1, InFrames [0x200000, 0x201000] a := by
  obtain ⟨h1, h2, hs, hd, -, hc⟩ := boot_stages ascendingMap (p := 0x200000)
    (q := 0x201000) ⟨by decide, by decide⟩ (by decide +kernel) (by decide)
  have hframes := (stagePages_frames hs).1
  rw [List.nil_append] at hframes
  have hgap : NoGap (nextFrames (bootMachine (sampleConfig ascendingMap)).mem
      (bootMachine (sampleConfig ascendingMap)).freeStack 2) 4097 := by
    rw [← hframes]
    intro f hf hle hlt
    simp only [List.headD_cons, List.mem_cons, List.not_mem_nil, or_false] at hf hle hlt
    exact ⟨0x201000, by simp, by omega, by omega⟩
  exact ⟨h1, h2, hs, hc, ((staging_inside_iff hs hd hc).mpr hgap).1⟩

/-- The free list starts with the highest frame, so the second page of a file is copied to the
frame above, which holds the stack that interrupts switch to. -/
theorem staging_leaves_frames : ∃ h1 h2,
    stagePages 2 (bootMachine (sampleConfig sampleMap)) [] = (some [0x14E000, 0x14D000], h1) ∧
    Active.stageCopy 0x100000 0x14E000 4097 0 h1 = some h2 ∧
    0x14F000 ∈ stagedTo 0x100000 0x14E000 4097 0 h1 ∧ ¬ InFrames [0x14E000, 0x14D000] 0x14F000 := by
  obtain ⟨h1, h2, hs, hd, hroot, hc⟩ := boot_stages sampleMap (p := 0x14E000)
    (q := 0x14D000)
    sampleMap_good (by decide +kernel) (by decide)
  refine ⟨h1, h2, hs, hc, (stagedTo_spec hd (Nat.zero_add 4097) hroot (stagePages_frames hs).2.2
    hc).1 4096 (Nat.zero_le _) (by decide) fun l _ hl => ?_, ?_⟩
  · exact ⟨0x14E000, by simp, Nat.le_add_right _ l, by
      change 0x14E000 + l < 0x14E000 + 4096
      omega⟩
  · rintro ⟨f, hf, hle, hlt⟩
    simp only [List.mem_cons, List.not_mem_nil, or_false] at hf
    omega

section Parse

variable {m img : Mem} {buf size : ℕ} (himg : ∀ i < size, m (buf + i) = img i)
include himg

variable (hlo : 64 ≤ size)
include hlo

variable (hhi : size ≤ 65536) (hbuf : buf + size ≤ 2 ^ 64)
include hhi hbuf

end Parse

/-- The active root maps the copy to itself. -/
def CopyDirect (buf size : ℕ) (h : Machine) : Prop :=
  ∀ a, buf ≤ a → a < buf + size → translate h a = some a

section Reads

variable {m : Mem} {buf size r : ℕ} {use : ℕ → Use} {fl frames : List ℕ} {h : Machine}

theorem CopyDirect.walks {changed : ℕ → ℕ → Prop} {h' : Machine} (hd : CopyDirect buf size h)
    (hw : WalksAgree (shape use) changed h.mem h'.mem)
    (hr : use h.pagingRoot = .table h.pagingRoot []) (hroot : h'.pagingRoot = h.pagingRoot)
    (hn : ∀ a, buf ≤ a → a < buf + size → ¬ changed h.pagingRoot a) : CopyDirect buf size h' := by
  intro a h1 h2
  rw [translate_agree hw (shape_eq_some.mpr hr) hroot (hn a h1 h2)]
  exact hd a h1 h2

end Reads

/-- The bytes of the sample program. -/
def sampleFile (i : ℕ) : UInt8 := sampleImage 0x10F000 (0x10F000 + i)

/-- The task that a spawn adds gets the next pid. -/
private theorem FirstTask.added {use : ℕ → Use} {f : ℕ} {fl : List ℕ} {s : Kernel}
    (hc : FirstTask use f fl s) {r : Option (ℤ × Kernel)} {h : Machine}
    {kstack root base codePages : ℕ}
    (hr : r = some (addTask s h none 0 kstack root base codePages)) : ∃ s', r = some (8, s') := by
  have hpid : (addTask s h none 0 kstack root base codePages).1 = 8 := by
    rw [addTask, show s.nextPid = 8 from congrArg TaskTable.nextPid hc.table]
    rfl
  generalize addTask s h none 0 kstack root base codePages = res at hpid hr
  obtain ⟨pid, s'⟩ := res
  obtain rfl : pid = 8 := hpid
  exact ⟨s', hr⟩

/-- The sample program is staged in the first free page and spawned whether or not its last eight
bytes are in the file. The caller maps the free pages to themselves, and so does the new task. -/
private theorem FirstTask.spawned {use : ℕ → Use} {f : ℕ} {fl : List ℕ} {s : Kernel}
    (hc : FirstTask use f fl s) (size : ℕ) (hlo : 120 ≤ size) (hhi : size ≤ 128) :
    ∃ h, stagePages ((size + 4095) / 4096) s.machine [] = (some [f], s.machine.take f) ∧
      stageCopy 0x10F000 f size 0 (s.machine.take f) = some h ∧
      (∀ i < size, h.mem (f + i) = sampleFile i) ∧
      GoodImage s 0x10F000 size ∧ (∃ s', createElf s 0x10F000 size 0 = some (8, s')) ∧
      (∀ g ∈ f :: fl, Direct s.machine g) ∧ ∀ g ∈ f :: fl, g + 4096 ≤ 2 ^ 30 ∧
        ∀ o < 4096, ¬ TouchedBy (elfMaps s 0x10F000 size 0).2 (g + o) := by
  have hf := hc.frame_le
  have hnum := hc.numTasks
  have hroom := hc.room
  obtain ⟨h, hstage, hcopy, hbytes, ho, -⟩ :=
    hc.safe.owned.staged (hc.readable hhi) (by omega) (by omega)
  have hbytes (i : ℕ) (hi : i < size) : h.mem (f + i) = sampleFile i :=
    (hbytes i hi).trans (hc.bytes i (by omega))
  obtain ⟨h', kstack, root, codePages, m, ms, use', fl', hcreate, -, -, -, -, hm, hv, -, -, -, -, -,
    hmaps, -⟩ := createElf_loads hc.safe (hc.readable hhi) (by omega) (by omega) hc.magic (n := 1)
      (fun m hm => sample_loadable hf fun i hi => (hm i (by omega)).trans (hc.bytes i (by omega)))
      (by omega) (by rw [hnum]; decide) (fun h => absurd h.1 (by decide))
      (show findReuse s 0 = none from rfl)
  refine ⟨h, hstage, hcopy, hbytes, fun pages h1 h2 hst hcp => ?_, hc.added hcreate,
    fun g hg o ho => ?_, fun g hg => ⟨?_, fun o ho => ?_⟩⟩
  · obtain ⟨hpages, rfl⟩ := Prod.mk.inj (hst.symm.trans hstage)
    obtain rfl := Option.some.inj hpages
    obtain rfl := Option.some.inj (hcp.symm.trans hcopy)
    obtain ⟨hload, hpages⟩ := sample_loadable hf fun i hi => hbytes i (by omega)
    have hal := hc.safe.owned.head.2.1
    refine ⟨fun i hi => ?_, hload, fl, ho.chain, ?_⟩
    · rw [List.headD_cons, show (f + i) / 4096 * 4096 = f by omega]
      exact List.mem_cons_self
    · rw [List.headD_cons]
      omega
  · have hg := hc.low g hg
    exact translate_identity (hc.identity _ (by omega)) (by omega)
  · have hg := hc.low g hg
    omega
  · rintro ⟨p, hp, ht⟩
    rw [hmaps] at hp
    have hpage := sample_pages hf (fun i hi => (hm i (by omega)).trans (hc.bytes i (by omega)))
      (hv p hp)
    have hregion : trail (g + o) 3 = trail p.1 3 :=
      ht.elim (fun h4 => (trail_last h4).1) fun h3 => h3.2
    rw [trail_three_iff] at hregion
    have hg := hc.low g hg
    omega

end Mukrn
