import Mukrn.Kernel.Resident
import Mukrn.Table.Identity

/-! Round robin. While a slot stays ready, the slots dispatched lie ahead of it in cyclic order,
each one further on than the one before. -/
namespace Mukrn
open Runs

/-- Place of slot `u` in the order that starts at `t` and wraps at the end of the table. It does
not depend on how many slots are in use. -/
def rank (t u : ℕ) : ℕ := if u < t then u + maxTasks else u

section Scan

variable {s : Kernel} {c t : ℕ}

/-- The `k`-th slot looked at, with the wrap written out. -/
private theorem scan_index (hc : c < s.numTasks) {k : ℕ} (hk : k < s.numTasks - 1) :
    (c + (k + 1)) % s.numTasks =
      if c + (k + 1) < s.numTasks then c + (k + 1) else c + (k + 1) - s.numTasks := by
  split
  next h => exact Nat.mod_eq_of_lt h
  next h =>
    rw [Nat.mod_eq_sub_mod (Nat.not_lt.mp h), Nat.mod_eq_of_lt (by omega)]

/-- The scan passes no ready slot: the one it stops at comes before every other ready one. -/
theorem nextTask_rank (hc : c < s.numTasks) (hle : s.numTasks ≤ maxTasks) (ht : t < s.numTasks)
    (hready : (s.tasks t).state = .ready) (hne : nextTask s c ≠ t) :
    rank t c < rank t (nextTask s c) := by
  obtain ⟨u, hu⟩ : ∃ u, nextTask s c = u := ⟨_, rfl⟩
  rw [hu] at hne ⊢
  unfold nextTask scheduleNext at hu
  split at hu
  next h1 =>
    have hcu : c = u := hu
    omega
  next h1 =>
  split at hu
  next n hn =>
    have hnu : n = u := hu
    subst hnu
    obtain ⟨-, k, hk, hkn, hbefore⟩ := List.find?_eq_some_iff_getElem.mp hn
    have hlen : k < s.numTasks - 1 := by simpa [scanOrder] using hk
    have hkn : (c + (k + 1)) % s.numTasks = n := by simpa [scanOrder] using hkn
    rw [scan_index hc hlen] at hkn
    by_cases htc : t = c
    · unfold rank
      split at hkn <;> split <;> split <;> omega
    · -- the index at which the scan would meet `t`
      have hkt : ∃ j < s.numTasks - 1, (c + (j + 1)) % s.numTasks = t := by
        rcases Nat.lt_or_ge c t with hlt | hge
        · refine ⟨t - c - 1, by omega, ?_⟩
          rw [scan_index hc (by omega), if_pos (by omega)]
          omega
        · refine ⟨t + s.numTasks - c - 1, by omega, ?_⟩
          rw [scan_index hc (by omega), if_neg (by omega)]
          omega
      obtain ⟨j, hj, hjt⟩ := hkt
      have hkj : k ≤ j := by
        by_contra hlt
        have hno := hbefore j (Nat.not_le.mp hlt)
        simp [scanOrder, hjt, isReady, hready] at hno
      rw [scan_index hc hj] at hjt
      unfold rank
      split at hkn <;> split at hjt <;> split <;> split <;> omega
  next hn =>
    have hcu : c = u := hu
    by_cases htc : t = c
    · omega
    · have hmem := (mem_scanOrder hc).mpr ⟨ht, htc⟩
      have hno := List.find?_eq_none.mp hn t hmem
      simp [isReady, hready] at hno

end Scan

/-- The slot dispatched at the end of the `0x80` branch. -/
def callDispatch (r : Registers) : SysOutcome → Option ℕ
  | .done rax s =>
    if 1 < s.numTasks then
      s.currentTask.map fun c => nextTask (yieldCaller s c { r with rax := .ofNat rax }) c
    else none
  | _ => none

/-- The slot dispatched by the timer once its own work is done. -/
def irqDispatch (s : Kernel) (n : ℕ) (r : Registers) : Option ℕ :=
  if n = 32 ∧ 1 < s.numTasks ∧ r.fromUser then
    s.currentTask.map fun c => nextTask (preempt s c r) c
  else none

/-- The slot a step dispatches, if it dispatches one. -/
def dispatchOf (x : System) (i : Input) : Option ℕ :=
  match x.phase, i with
  | .user _, .trap _ r =>
    match i.request with
    | .fault => (List.range (sysExit x.kernel).numTasks).find? (isReady (sysExit x.kernel))
    | .irq io n => irqDispatch (irqEffect x.kernel io n) n r
    | .call io call => (syscallHandler x.kernel io call).bind (callDispatch r)
    | _ => none
  | .asleep r start target, .irq io n =>
    if 32 ≤ n ∧ n ≤ 47 then callDispatch r (sleepLoop (irqEffect x.kernel io n) start target)
    else none
  | _, _ => none

/-- A dispatch of `u` after the scan of the state `k` from the current slot `c`, or none. -/
def Dispatches (c : ℕ) (y : System) : Option ℕ → Prop
  | none => y.kernel.currentTask = some c
  | some u => ∃ k, Scheduled k c ∧ nextTask k c = u ∧ y = (dispatch k u).system

section Step

variable {c : ℕ}

private theorem callDispatch_spec {o : SysOutcome} (hs : Scheduled o.kernel c) (r : Registers) :
    Dispatches c (finishSyscall r o).system (callDispatch r o) := by
  cases o with
  | done rax s =>
    have hc : s.currentTask = some c := hs.current
    simp only [callDispatch]
    by_cases hn : 1 < s.numTasks
    · rw [if_pos hn, hc]
      refine ⟨_, (hs.yieldCaller _).1, rfl, ?_⟩
      simp only [finishSyscall, afterSyscall_eq hn hc]
      rfl
    · rw [if_neg hn]
      simp only [finishSyscall, afterSyscall, if_neg hn]
      exact hc
  | asleep s start target => exact hs.current
  | stopped s => exact hs.current

private theorem irqDispatch_spec {s : Kernel} (hs : Scheduled s c) (n : ℕ) (r : Registers) :
    Dispatches c (if n = 32 ∧ 1 < s.numTasks ∧ r.fromUser then schedule s c r
      else .resume s r).system (irqDispatch s n r) := by
  unfold irqDispatch
  split
  · rw [hs.current]
    refine ⟨_, (hs.preempt r).1, rfl, ?_⟩
    exact congrArg Outcome.system (dispatch_scheduleNext (preempt s c r) c)
  · exact hs.current

/-- Other than by a fatal page fault, a slot is dispatched only after a scan from the current
one. -/
theorem step_dispatches {x y : System} {i : Input} (hs : Scheduled x.kernel c)
    (hi : i.request ≠ .fault) (h : step x i = some y) : Dispatches c y (dispatchOf x i) := by
  obtain ⟨s, p⟩ := x
  cases p with
  | user r0 =>
    cases i with
    | irq io n => cases h
    | store virt b =>
      obtain ⟨m, -, rfl⟩ := Option.map_eq_some_iff.mp h
      exact hs.current
    | trap io r =>
      obtain ⟨o, ho, rfl⟩ := Option.map_eq_some_iff.mp h
      simp only [Input.request] at hi
      simp only [dispatchOf, Input.request]
      unfold isrHandler at ho
      dsimp only at ho
      split at ho
      next h31 =>
        rw [if_pos h31] at hi ⊢
        by_cases hf : r.intNo.toNat = 14 ∧ r.fromUser
        · rw [if_pos hf] at hi
          exact absurd rfl hi
        · rw [if_neg hf] at ho ⊢
          obtain rfl := Option.some.inj ho
          exact hs.current
      next h31 =>
      rw [if_neg h31]
      split at ho
      next h47 =>
        have hs' := hs.irqEffect io r.intNo.toNat
        rw [hs'.current] at ho
        obtain rfl := Option.some.inj ho
        rw [if_pos h47]
        exact irqDispatch_spec hs' _ r
      next h47 =>
      rw [if_neg h47]
      split at ho
      next h80 =>
        obtain ⟨o', ho', rfl⟩ := Option.map_eq_some_iff.mp ho
        rw [if_pos h80]
        simp only [ho', Option.bind_some]
        exact callDispatch_spec (hs.callEffect (syscallHandler_effect hs.current ho')) r
      next h80 =>
        obtain rfl := Option.some.inj ho
        rw [if_neg h80]
        exact hs.current
  | asleep r start target =>
    cases i with
    | trap io r => cases h
    | store virt b => cases h
    | irq io n =>
      simp only [step] at h
      simp only [dispatchOf]
      split at h
      next hn =>
        obtain rfl := Option.some.inj h
        rw [if_pos hn]
        exact callDispatch_spec ((hs.irqEffect io n).sleepLoop start target) r
      · cases h
  | stopped => cases i <;> cases h

/-- The current slot moves away from a ready slot that is not dispatched. -/
theorem Dispatches.rank {y : System} {u t : ℕ} (hd : Dispatches c y (some u))
    (ht : t < y.kernel.numTasks) (hready : (y.kernel.tasks t).state = .ready) :
    y.kernel.currentTask = some u ∧ u < maxTasks ∧ Mukrn.rank t c < Mukrn.rank t u := by
  obtain ⟨k, hs, rfl, rfl⟩ := hd
  rw [dispatch_kernel] at ht hready ⊢
  have hne : nextTask k c ≠ t := by
    intro he
    simp only [dispatched, he, Kernel.setState_apply, if_true] at hready
    cases hready
  have hk : (k.tasks t).state = .ready := by
    simpa only [dispatched, Kernel.setState_apply, if_neg hne.symm] using hready
  exact ⟨rfl, (nextTask_lt hs.lt).trans_le hs.le, nextTask_rank hs.lt hs.le ht hk hne⟩

end Step

/-- The slots dispatched in a run, the last one first. -/
def recordDispatch (x : System) (i : Input) (_ : System) (log : List ℕ) : List ℕ :=
  match dispatchOf x i with
  | none => log
  | some u => u :: log

/-- Nothing was dispatched twice, and the current slot is the furthest from `t` so far. -/
structure InTurn (t : ℕ) (x : System) (log : List ℕ) : Prop where
  nodup : log.Nodup
  rank : ∀ c, x.kernel.currentTask = some c → ∀ u ∈ log, u < maxTasks ∧ rank t u ≤ Mukrn.rank t c

theorem InTurn.step {t c : ℕ} {x y : System} {i : Input} {log : List ℕ} (h : InTurn t x log)
    (hs : Scheduled x.kernel c) (hi : i.request ≠ .fault) (hy : step x i = some y)
    (ht : t < y.kernel.numTasks) (hready : (y.kernel.tasks t).state = .ready) :
    InTurn t y (recordDispatch x i y log) := by
  have hd := step_dispatches hs hi hy
  unfold recordDispatch
  cases hu : dispatchOf x i with
  | none =>
    rw [hu] at hd
    refine ⟨h.nodup, fun d hdy => ?_⟩
    obtain rfl := Option.some.inj (hdy.symm.trans hd)
    exact h.rank d hs.current
  | some u =>
    rw [hu] at hd
    obtain ⟨hcur, hum, hlt⟩ := hd.rank ht hready
    constructor
    · apply List.nodup_cons.mpr ⟨_, h.nodup⟩
      intro hmem
      have hle := (h.rank c hs.current u hmem).2
      omega
    · intro d hdy v hv
      obtain rfl := Option.some.inj (hdy.symm.trans hcur)
      rcases List.mem_cons.mp hv with rfl | hv
      · exact ⟨hum, le_rfl⟩
      · obtain ⟨hvm, hle⟩ := h.rank c hs.current v hv
        exact ⟨hvm, hle.trans hlt.le⟩

/-- In a stretch of a run without fatal page faults in which slot `t` is ready throughout, no slot
is dispatched twice. -/
theorem no_slot_dispatched_twice {x y : System} {t : ℕ} {log : List ℕ} (hx : Reachable x)
    (hrun : Reach (withGhost step recordDispatch)
      (fun z i => (z.1.kernel.tasks t).state = .ready ∧ i.request ≠ .fault) (x, []) (y, log))
    (hy : (y.kernel.tasks t).state = .ready) : log.Nodup := by
  have hinv : Reachable (y, log).1 ∧
      (((y, log).1.kernel.tasks t).state = .ready → InTurn t (y, log).1 (y, log).2) := by
    apply hrun.invariant (P := fun z => Reachable z.1 ∧
      ((z.1.kernel.tasks t).state = .ready → InTurn t z.1 z.2))
    · exact ⟨hx, fun _ => ⟨List.nodup_nil, fun c _ u hu => by cases hu⟩⟩
    · rintro ⟨z, g⟩ i ⟨u, g'⟩ ⟨hz, hturn⟩ ⟨hready, hi⟩ hu
      obtain ⟨hstep, rfl⟩ := withGhost_eq_some.mp hu
      have hreach : Reachable u := hz.trans (.tail .refl trivial hstep)
      refine ⟨hreach, fun hru => ?_⟩
      have hlt : t < u.kernel.numTasks := by
        by_contra hn
        rw [hreach.indexed.2.idle t (Nat.not_lt.mp hn)] at hru
        cases hru
      rcases hz.indexed.1 with ⟨hp, -⟩ | ⟨⟨c, hs⟩, -⟩
      · rw [step_stopped hp] at hstep
        cases hstep
      · exact (hturn hready).step hs hi hstep hlt hru
  exact (hinv.2 hy).nodup

/-- A step after which another slot is current has dispatched it. -/
private theorem dispatchOf_current {x y : System} {i : Input} {c u : ℕ} (hs : Scheduled x.kernel c)
    (hi : i.request ≠ .fault) (hy : step x i = some y) (hu : y.kernel.currentTask = some u)
    (hne : u ≠ c) : dispatchOf x i = some u := by
  have hd := step_dispatches hs hi hy
  cases hv : dispatchOf x i with
  | none =>
    rw [hv] at hd
    exact absurd (Option.some.inj (hu.symm.trans hd)) hne
  | some v =>
    rw [hv] at hd
    obtain ⟨k, -, -, rfl⟩ := hd
    rw [dispatch_kernel] at hu
    exact hu

/-- A thread creates another one, which is dispatched, while slot 0 stays ready. -/
private theorem clone_recorded {use : ℕ → Use} {f c u : ℕ} {fl log : List ℕ} {x : System}
    {r : Registers} {t : TaskTable} (hx : Reachable x) (hs : Safe use (f :: fl) x.kernel)
    (hp : x.phase = .user r) (hn : x.kernel.numTasks < maxTasks)
    (hc : x.kernel.currentTask = some c)
    (hready : (x.kernel.tasks 0).state = .ready)
    (ht : x.kernel.table.step (.clone 0 0 0 0) = some t) (hu : t.current = some u) (hne : u ≠ c) :
    ∃ y r' use', Reachable y ∧ Safe use' fl y.kernel ∧ y.phase = .user r' ∧ y.kernel.table = t ∧
      Reach (withGhost step recordDispatch) (fun z i => (z.1.kernel.tasks 0).state = .ready ∧
        i.request ≠ .fault) (x, log) (y, u :: log) := by
  have hsched := (hx.scheduled (by rw [hp]; exact fun h => by cases h) hc).1
  obtain ⟨-, y, r', use', hxy, hpy, hty, hsy, -⟩ := step_clone quietPorts (.call 21 0 0 0 0) hs hc
    hsched.lt hp hn rfl rfl
  obtain rfl := Option.some.inj (hty.symm.trans ht)
  refine ⟨y, r', use', hx.trans (.tail .refl trivial hxy), hsy, hpy, rfl,
    .tail .refl ⟨hready, fun hf => by cases hf⟩ (withGhost_eq_some.mpr ⟨hxy, ?_⟩)⟩
  simp only [recordDispatch, dispatchOf_current hsched (fun hf => by cases hf) hxy hu hne]

/-- Slot 0 stays ready while each of the threads in slots 1 and 2 creates the next one. -/
theorem no_slot_dispatched_twice_sample : ∃ x y : System, ∃ log, Reachable x ∧
    Reach (withGhost step recordDispatch)
      (fun z i => (z.1.kernel.tasks 0).state = .ready ∧ i.request ≠ .fault) (x, []) (y, log) ∧
    (y.kernel.tasks 0).state = .ready ∧ log = [3, 2] ∧ log.Nodup := by
  obtain ⟨b, h, f, x, r, use, fl, hk, -, hstep, hp, hty, hs, -, -, hlen, -⟩ := sample_cloned
  have htx := (Option.some.inj hty).symm
  have hx : Reachable x := ⟨_, b, hk, .tail .refl trivial hstep⟩
  obtain ⟨g, g', fl, rfl⟩ : ∃ g g' fl', fl = g :: g' :: fl' := by
    rcases fl with - | ⟨g, - | ⟨g', fl⟩⟩
    · exact absurd hlen (by decide)
    · exact absurd hlen (by simp)
    · exact ⟨g, g', fl, rfl⟩
  have hn : x.kernel.numTasks = 2 := congrArg TaskTable.num htx
  obtain ⟨y, r1, use1, hy, hsy, hpy, hty, hrun⟩ := clone_recorded hx hs hp (by rw [hn]; decide)
    (congrArg TaskTable.current htx) (congrArg (·.state 0) htx) (by rw [htx]; rfl) rfl (by decide)
  have hn : y.kernel.numTasks = 3 := congrArg TaskTable.num hty
  obtain ⟨z, r2, use2, hz, -, -, htz, hrun'⟩ := clone_recorded hy hsy hpy (by rw [hn]; decide)
    (congrArg TaskTable.current hty) (congrArg (·.state 0) hty) (by rw [hty]; rfl) rfl (by decide)
  have hz0 : (z.kernel.tasks 0).state = .ready := congrArg (·.state 0) htz
  exact ⟨x, z, [3, 2], hx, hrun.trans hrun', hz0, rfl,
    no_slot_dispatched_twice hx (hrun.trans hrun') hz0⟩

/-- The first task sends itself a message of type 2, and three threads are created. When it receives
the message into a buffer whose type field is `current_task`, slot 3 is dispatched once more, while
slot 1 has been ready since slot 2 was dispatched. -/
theorem slot_dispatched_again :
    ((⟨0x10E008, 0x10E100⟩ : Variables).run quietPorts (bareConfig 14 fun _ => 0)
      [.call 2 1 2 0 0, .call 21 0 0 0 0, .call 21 0 0 0 0, .call 21 0 0 0 0, .call 27 0 0 0 0,
        .call 3 0x10E000 0 0 0]).map (List.map fun s => (s.currentTask, (s.tasks 1).state)) =
      some [(some 0, .exited), (some 1, .running), (some 2, .ready), (some 3, .ready),
        (some 0, .ready), (some 3, .ready)] := by decide +kernel

end Mukrn
