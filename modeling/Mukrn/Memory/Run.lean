import Mukrn.Table.Pids

/-! Runs of sound steps. Each step keeps the kernel safe and changes the address spaces as its
request says, so an invariant of runs only needs an argument for each kind of request. -/
namespace Mukrn
open ByteMemory PageTable LinkedStack Runs

section Finish

variable {s k k' : Kernel} {c : ℕ} {use : ℕ → Use}

/-- The end of a trap moves neither roots nor translations. -/
private theorem SpaceChange.finish {changed : ℕ → Prop} (h : SpaceChange changed s c k)
    (hold : ∀ i < s.numTasks, use (s.tasks i).pml4Phys = .table (s.tasks i).pml4Phys [])
    (hsame : SameTable k k') (hw : WalksAgree (shape use) (fun _ _ => False) k.machine.mem
      k'.machine.mem) : SpaceChange changed s c k' := by
  refine ⟨fun i hi => ?_, fun ok ha i hi va hn => ?_⟩
  · obtain ⟨st, rsp, he⟩ := hsame.tasks i
    rw [he]
    exact h.roots i (hsame.numTasks ▸ hi)
  · rw [hw ok ha _ (shape_eq_some.mpr (hold i hi)) va id]
    exact h.walks ok ha i hi va hn

theorem SpaceEffect.finish {q : Request} (h : SpaceEffect s c use k q) (hc : c < s.numTasks)
    (hold : ∀ i < s.numTasks, use (s.tasks i).pml4Phys = .table (s.tasks i).pml4Phys [])
    (hnew : ∀ i < k.numTasks, use (k.tasks i).pml4Phys = .table (k.tasks i).pml4Phys [])
    (hsame : SameTable k k')
    (hw : WalksAgree (shape use) (fun _ _ => False) k.machine.mem k'.machine.mem) :
    SpaceEffect s c use k' q := by
  have hwalk (ok : ℕ → Bool) (ha : Access ok) (va : ℕ) {i : ℕ} (hi : i < s.numTasks) :
      walk ok k'.machine.mem va 3 (s.tasks i).pml4Phys =
        walk ok k.machine.mem va 3 (s.tasks i).pml4Phys :=
    hw ok ha _ (shape_eq_some.mpr (hold i hi)) va id
  cases h with
  | same h => exact .same (h.finish hold hsame hw)
  | mapped h ht hg =>
    refine .mapped (h.finish hold hsame hw) (fun ok ha va pa hpa => ?_) hg
    rw [hwalk ok ha va hc] at hpa
    exact ht ok ha va pa hpa
  | unmapped h ht =>
    refine .unmapped (h.finish hold hsame hw) fun ok ha va pa hpa => ?_
    rw [hwalk ok ha va hc] at hpa
    exact ht ok ha va pa hpa
  | reflagged h ht =>
    refine .reflagged (h.finish hold hsame hw) fun ok ha va pa hpa => ?_
    rw [hwalk ok ha va hc] at hpa
    exact ht ok ha va pa hpa
  | spawned hw0 hr =>
    refine .spawned (fun ok ha i hi va => ?_) fun i hi => ?_
    · rw [hwalk ok ha va hi]
      exact hw0 ok ha i hi va
    · obtain ⟨st, rsp, he⟩ := hsame.tasks i
      have hi : i < k.numTasks := hsame.numTasks ▸ hi
      rw [he]
      refine (hr i hi).imp_right fun ⟨hroot, hn, hg⟩ => ⟨hroot, hn.congr ?_ hw, hg⟩
      rw [← hroot]
      exact shape_eq_some.mpr (hnew i hi)

end Finish

/-- How user mode comes to reach `pa` at `va` under a root by a request of slot `c`: it did so
before, or the page was mapped, changed in its rights or loaded by the request. -/
inductive UserReached (s : Kernel) (c : ℕ) (use' : ℕ → Use) (r va pa : ℕ) : Request → Prop
  | before {q : Request} {j : ℕ} (hj : j < s.numTasks) (hr : r = (s.tasks j).pml4Phys)
      (hw : walk userOpen s.machine.mem va 3 (s.tasks j).pml4Phys = some pa) :
      UserReached s c use' r va pa q
  | mapped {io : Ports} {call : Syscall} {p : ℕ × ℕ} (hr : r = (s.tasks c).pml4Phys)
      (hp : p ∈ callMaps s c call) (ht : Touches p.1 p.2 va) (hpa : pa = mappedTo p.1 p.2 va)
      (hg : call.isMmapPhys = false → use' p.2 = .data) :
      UserReached s c use' r va pa (.call io call)
  | reflagged {io : Ports} {virt size flags v : ℕ} (hr : r = (s.tasks c).pml4Phys)
      (hv : v ∈ pageCursor (rangeStart virt) (rangeEnd virt size)) (ht : trail va 4 = trail v 4)
      (hw : walk present s.machine.mem va 3 (s.tasks c).pml4Phys = some pa) :
      UserReached s c use' r va pa (.call io (.mprotect virt size flags))
  | loaded {io : Ports} {addr size : ℕ} {p : ℕ × ℕ} (hr : r = (elfMaps s addr size 0).1)
      (hp : p ∈ (elfMaps s addr size 0).2) (ht : Touches p.1 p.2 va)
      (hpa : pa = mappedTo p.1 p.2 va) (hg : use' p.2 = .data) :
      UserReached s c use' r va pa (.call io (.spawnAt addr size))

/-- In a new address space user mode reaches the pages that were loaded. -/
theorem NewSpace.user_target {ms : List (ℕ × ℕ)} {m : Mem} {r va pa : ℕ} (hn : NewSpace ms m r)
    (hw : walk userOpen m va 3 r = some pa) :
    ∃ p ∈ ms, Touches p.1 p.2 va ∧ pa = mappedTo p.1 p.2 va := by
  rcases hn.target _ access_userOpen va pa hw with ht | hp
  · rw [templateWalk, if_neg fun h => absurd h.1 (by decide)] at ht
    cases ht
  · exact hp

theorem SpaceEffect.userReached {s k : Kernel} {c i va pa : ℕ} {use' : ℕ → Use} {q : Request}
    (h : SpaceEffect s c use' k q) (hc : c < s.numTasks) (hi : i < k.numTasks)
    (hw : walk userOpen k.machine.mem va 3 (k.tasks i).pml4Phys = some pa) :
    UserReached s c use' (k.tasks i).pml4Phys va pa q := by
  -- the root is an old one, and only the caller's address space can have changed
  have hold {changed : ℕ → Prop} (hch : SpaceChange changed s c k)
      (hnew : (k.tasks i).pml4Phys = (s.tasks c).pml4Phys → changed va →
        UserReached s c use' (k.tasks i).pml4Phys va pa q) :
      UserReached s c use' (k.tasks i).pml4Phys va pa q := by
    obtain ⟨j, hj, hroot⟩ := hch.roots i hi
    by_cases hn : (s.tasks j).pml4Phys = (s.tasks c).pml4Phys ∧ changed va
    · exact hnew (hroot.trans hn.1) hn.2
    · rw [hroot, hch.walks _ access_userOpen j hj va hn] at hw
      exact .before hj hroot hw
  cases h with
  | same hch => exact hold hch fun _ h => h.elim
  | mapped hch ht hg =>
    refine hold hch fun hroot _ => ?_
    rw [hroot] at hw
    rcases ht _ access_userOpen va pa hw with hw | ⟨p, hp, htouch, hpa⟩
    · exact .before hc hroot hw
    · exact .mapped hroot hp htouch hpa fun hm => hg hm p hp
  | unmapped hch ht =>
    refine hold hch fun hroot _ => ?_
    rw [hroot] at hw
    exact .before hc hroot (ht _ access_userOpen va pa hw)
  | reflagged hch ht =>
    refine hold hch fun hroot hv => ?_
    obtain ⟨v, hv, htrail⟩ := hv
    rw [hroot] at hw
    exact .reflagged hroot hv htrail (ht _ access_userOpen va pa hw)
  | spawned hsame hr =>
    rcases hr i hi with ⟨j, hj, hroot⟩ | ⟨hroot, hn, hg⟩
    · rw [hroot, hsame _ access_userOpen j hj va] at hw
      exact .before hj hroot hw
    · rw [hroot] at hw
      obtain ⟨p, hp, htouch, hpa⟩ := hn.user_target hw
      exact .loaded hroot hp htouch hpa (hg p hp)

section Step

variable {use : ℕ → Use} {fl : List ℕ} {x y : System} {i : Input} {c : ℕ}

/-- One step of a sound request. -/
theorem Safe.step (hs : Safe use fl x.kernel) (hsch : Scheduled x.kernel c)
    (hq : SoundRequest x.kernel c i.request) (h : step x i = some y) :
    Settles use x.kernel c i.request y.kernel := by
  obtain ⟨k, hk, hf⟩ := step_finish h
  have hserved := serve_cases hk
  obtain ⟨use', fl', hs', hkeep, heffect⟩ := hs.served hsch.current hsch.lt hq hserved
  have hcur (d : ℕ) (hd : k.currentTask = some d) : d < k.numTasks := by
    have hk := hsch.served hserved
    obtain rfl := Option.some.inj (hk.current.symm.trans hd)
    exact hk.lt
  obtain ⟨hy, hw⟩ := hs'.finish hcur hf
  refine ⟨use', fl', hy, hkeep, heffect.finish hsch.lt (fun j hj => ?_) hs'.root hf.sameTable hw⟩
  obtain ⟨hjk, hid⟩ := hserved.slot hsch.current hj
  have hroot : (k.tasks j).pml4Phys = (x.kernel.tasks j).pml4Phys :=
    congrArg (fun t : ℕ × ℕ × ℕ × ℕ => t.2.1) hid
  rw [← hroot]
  exact hs'.root j hjk

end Step

/-- What each step of a run has to meet. -/
def Sound (x : System) (i : Input) : Prop :=
  ∀ c, x.kernel.currentTask = some c → SoundRequest x.kernel c i.request

/-- One step of a run from boot: the task that makes the request, and what becomes of the kernel. -/
theorem HaltedOrNumbered.safe_step {x y : System} {i : Input} {use : ℕ → Use} {fl : List ℕ}
    (hn : HaltedOrNumbered x) (hs : Safe use fl x.kernel)
    (hsound : ∀ c, Scheduled x.kernel c → SoundRequest x.kernel c i.request)
    (h : Mukrn.step x i = some y) :
    ∃ c, Scheduled x.kernel c ∧ Settles use x.kernel c i.request y.kernel := by
  rcases hn with ⟨hstop, -⟩ | ⟨⟨c, hc⟩, -⟩
  · rw [step_stopped hstop] at h
    cases h
  · exact ⟨c, hc, hs.step hc (hsound c hc) h⟩

/-- An invariant of runs from boot that may use page ownership, the scheduler's variables and what
a sound request does to the address spaces. -/
theorem reach_safe_invariant {ok : System → Input → Prop} {P : (ℕ → Use) → Kernel → Prop}
    {cfg : BootConfig} {x0 y : System} (hk : kmain cfg = some x0)
    (h0 : ∃ use fl, Safe use fl x0.kernel ∧ P use x0.kernel)
    (hsound : ∀ x i c use fl, Scheduled x.kernel c → Safe use fl x.kernel → P use x.kernel →
      ok x i → SoundRequest x.kernel c i.request)
    (hstep : ∀ x i y c use fl use' fl', Scheduled x.kernel c → Safe use fl x.kernel →
      P use x.kernel → ok x i → step x i = some y → Safe use' fl' y.kernel → KeepsData use use' →
      SpaceEffect x.kernel c use' y.kernel i.request → P use' y.kernel)
    (hy : Reach step ok x0 y) : ∃ use fl, Safe use fl y.kernel ∧ P use y.kernel := by
  refine (hy.invariant (P := fun z => HaltedOrNumbered z ∧
    ∃ use fl, Safe use fl z.kernel ∧ P use z.kernel) ⟨kmain_cases hk, h0⟩ ?_).2
  rintro x i y ⟨hn, use, fl, hs, hp⟩ hok h
  refine ⟨hn.step h, ?_⟩
  obtain ⟨c, hc, use', fl', hs', hkeep, heffect⟩ :=
    hn.safe_step hs (fun c hc => hsound x i c use fl hc hs hp hok) h
  exact ⟨use', fl', hs', hstep x i y c use fl use' fl' hc hs hp hok h hs' hkeep heffect⟩

/-- The same with a record of the run beside it. -/
theorem reach_safe_record {γ : Type} {record : System → Input → System → γ → γ}
    {ok : System × γ → Input → Prop} {P : (ℕ → Use) → Kernel → γ → Prop} {cfg : BootConfig}
    {x0 : System} {g0 : γ} {y : System × γ} (hk : kmain cfg = some x0)
    (h0 : ∃ use fl, Safe use fl x0.kernel ∧ P use x0.kernel g0)
    (hsound : ∀ x g i c use fl, Scheduled x.kernel c → Safe use fl x.kernel → P use x.kernel g →
      ok (x, g) i → SoundRequest x.kernel c i.request)
    (hstep : ∀ x i y g c use fl use', Scheduled x.kernel c → Safe use fl x.kernel →
      P use x.kernel g → ok (x, g) i → step x i = some y → KeepsData use use' →
      SpaceEffect x.kernel c use' y.kernel i.request → P use' y.kernel (record x i y g))
    (hy : Reach (withGhost step record) ok (x0, g0) y) :
    HaltedOrNumbered y.1 ∧ ∃ use fl, Safe use fl y.1.kernel ∧ P use y.1.kernel y.2 := by
  apply hy.invariant (P := fun z => HaltedOrNumbered z.1 ∧
    ∃ use fl, Safe use fl z.1.kernel ∧ P use z.1.kernel z.2)
  · exact ⟨kmain_cases hk, h0⟩
  · rintro ⟨x, g⟩ i ⟨y, g'⟩ ⟨hn, use, fl, hs, hp⟩ hok h
    obtain ⟨hx, rfl⟩ := withGhost_eq_some.mp h
    obtain ⟨c, hc, use', fl', hs', hkeep, heffect⟩ :=
      hn.safe_step hs (fun c hc => hsound x g i c use fl hc hs hp hok) hx
    exact ⟨hn.step hx, use', fl', hs', hstep x i y g c use fl use' hc hs hp hok hx hkeep heffect⟩

/-- Sound runs only lead to safe kernels. -/
theorem reach_safe {ok : System → Input → Prop} {cfg : BootConfig} {x0 y : System}
    (hg : GoodBoot cfg) (hk : kmain cfg = some x0) (hok : ∀ x i, ok x i → Sound x i)
    (hy : Reach step ok x0 y) : ∃ use fl, Safe use fl y.kernel := by
  obtain ⟨use, fl, hs⟩ := kmain_safe hg hk
  obtain ⟨use', fl', hs', -⟩ := reach_safe_invariant (P := fun _ _ => True) hk
    ⟨use, fl, hs, trivial⟩ (fun x i c _ _ hc _ _ h => hok x i h c hc.current)
    (fun _ _ _ _ _ _ _ _ _ _ _ _ _ _ _ _ => trivial) hy
  exact ⟨use', fl', hs'⟩

end Mukrn
