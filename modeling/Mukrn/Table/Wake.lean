import Mathlib.Data.Finset.Card
import Mathlib.Data.List.Induction
import Mukrn.Table.Pids

/-! The four operations that make blocked tasks ready, and exactly which slots they wake. -/
namespace Mukrn

/-- A wake operation of the current task or of the keyboard interrupt. -/
inductive WakeOp where
  | exit
  | send (targetPid type data len : ℕ)
  | keyboard (sc : UInt8)
  | futexWake (uaddr val : ℕ)

/-- `none` when the kernel faults on a pointer of the caller. -/
def WakeOp.apply (s : Kernel) : WakeOp → Option Kernel
  | .exit => some (sysExit s)
  | .send targetPid type data len => (sysSend s targetPid type data len).map Prod.snd
  | .keyboard sc => some (keyboardIrq s sc)
  | .futexWake uaddr val => (sysFutex s uaddr 1 val).map Prod.snd

/-- The entries for an address in the order in which `FUTEX_WAKE` comes to them: in the place of
one that is taken out, the last of the table is looked at next. -/
def wakeOrder (uaddr : ℕ) : List FutexWaiter → List FutexWaiter
  | [] => []
  | e :: l =>
    if e.uaddr = uaddr then e :: wakeOrder uaddr (l.getLast?.toList ++ l.dropLast)
    else wakeOrder uaddr l
termination_by l => l.length
decreasing_by
  · cases l using List.reverseRecOn <;> simp
  · simp

/-- The blocked slots that these entries name. -/
def blockedSlots (s : Kernel) (l : List FutexWaiter) : Finset ℕ :=
  (l.map FutexWaiter.taskIdx).toFinset.filter fun j => (s.tasks j).state = .blocked

/-- A wake of up to `val` tasks comes to an entry of slot `w`: those before it name fewer blocked
slots. -/
def Reaches (s : Kernel) (uaddr : ℕ) (val : ℤ) (l : List FutexWaiter) (w : ℕ) : Prop :=
  ∃ before e after, wakeOrder uaddr l = before ++ e :: after ∧ e.taskIdx = w ∧
    ((blockedSlots s before).card : ℤ) < val

/-- Slot `w` is the one the operation marks ready if it is blocked. -/
def Wakes (s : Kernel) (c : ℕ) (w : ℕ) : WakeOp → Prop
  | .exit => (s.tasks c).waitIdx = some w ∧ w ≠ c
  | .send targetPid _ _ _ =>
    s.findLive targetPid = some w ∧ (s.tasks w).ipcCount < ipcQueueSize
  | .keyboard _ =>
    s.irqHandlers 1 = some w ∧ w < maxTasks ∧ s.live w ∧ (s.tasks w).ipcCount < ipcQueueSize
  | .futexWake uaddr val => Reaches s uaddr (toInt val) s.futexWaiters w

section Futex

variable {s : Kernel} {uaddr i w : ℕ} {val woken : ℤ}

/-- Taking out the entry at `i` puts the last one in its place. -/
private theorem drop_swapRemove {l rest : List FutexWaiter} {e : FutexWaiter}
    (hl : l.drop i = e :: rest) :
    ((l.set i (l.getD (l.length - 1) e)).dropLast).drop i =
      rest.getLast?.toList ++ rest.dropLast := by
  have hlen : l.length = i + (rest.length + 1) := by
    have := congrArg List.length hl
    simp only [List.length_drop, List.length_cons] at this
    omega
  obtain ⟨front, hfront, rfl⟩ : ∃ front, front.length = i ∧ l = front ++ e :: rest :=
    ⟨l.take i, by simp; omega, by rw [← hl, List.take_append_drop]⟩
  subst hfront
  cases rest using List.reverseRecOn with
  | nil => simp
  | append_singleton rest z =>
    have hlast : (front ++ e :: (rest ++ [z])).getD ((front ++ e :: (rest ++ [z])).length - 1) e =
        z := by
      simp [List.getD]
    have hset : (front ++ e :: (rest ++ [z])).set front.length z = (front ++ z :: rest) ++ [z] := by
      simp
    rw [hlast, hset, List.dropLast_concat]
    simp

/-- The entry taken out counts when its slot is blocked; the slot is then ready and counts no
more. -/
private theorem card_blockedSlots_cons {s' : Kernel} {e : FutexWaiter} (before : List FutexWaiter)
    (hstate : ∀ j, (s'.tasks j).state =
      if j = e.taskIdx ∧ (s.tasks j).state = .blocked then .ready else (s.tasks j).state) :
    (blockedSlots s (e :: before)).card = (blockedSlots s' before).card +
      if (s.tasks e.taskIdx).state = .blocked then 1 else 0 := by
  have hmem (j : ℕ) : j ∈ blockedSlots s' before ↔ j ∈ blockedSlots s before ∧ j ≠ e.taskIdx := by
    simp only [blockedSlots, Finset.mem_filter, hstate j]
    by_cases hj : j = e.taskIdx
    · subst hj
      by_cases hb : (s.tasks e.taskIdx).state = .blocked <;> simp [hb]
    · simp [hj]
  split
  next hb =>
    have heq : blockedSlots s (e :: before) = insert e.taskIdx (blockedSlots s' before) := by
      ext j
      rw [Finset.mem_insert, hmem]
      by_cases hj : j = e.taskIdx
      · simp [blockedSlots, hj, hb]
      · simp [blockedSlots, hj]
    rw [heq, Finset.card_insert_of_notMem fun h => ((hmem _).mp h).2 rfl]
  next hb =>
    have heq : blockedSlots s (e :: before) = blockedSlots s' before := by
      ext j
      rw [hmem]
      by_cases hj : j = e.taskIdx
      · simp [blockedSlots, hj, hb]
      · simp [blockedSlots, hj]
    rw [heq, Nat.add_zero]

/-- A blocked slot is ready after the wake exactly when the wake comes to an entry of it. -/
theorem futexWakeLoop_ready_iff (fuel : ℕ) (hfuel : fuel = (s.futexWaiters.drop i).length)
    (hb : (s.tasks w).state = .blocked) :
    ((futexWakeLoop uaddr val fuel i woken s).2.tasks w).state = .ready ↔
      Reaches s uaddr (val - woken) (s.futexWaiters.drop i) w := by
  induction fuel generalizing i woken s with
  | zero =>
    rw [List.eq_nil_of_length_eq_zero hfuel.symm]
    simp [futexWakeLoop, hb, Reaches, wakeOrder]
  | succ fuel ih =>
    unfold futexWakeLoop
    split
    next hlt =>
      cases hrest : s.futexWaiters.drop i with
      | nil => simp [hrest] at hfuel
      | cons e rest =>
        have hi : s.futexWaiters[i]? = some e := by
          rw [← List.head?_drop, hrest, List.head?_cons]
        rw [hrest, List.length_cons, Nat.add_right_cancel_iff] at hfuel
        simp only [hi]
        unfold Reaches
        rw [wakeOrder]
        split
        next hu =>
          -- the entry is taken out, and its task counts if it was blocked
          by_cases hew : e.taskIdx = w
          · subst hew
            refine iff_of_true ?_ ⟨[], e, _, rfl, rfl, by simp [blockedSlots]; omega⟩
            simp only [hb, if_true]
            rw [(futexWakeLoop_woken ..).state_kept] <;> simp
          · have hlen : (rest.getLast?.toList ++ rest.dropLast).length = rest.length := by
              cases rest using List.reverseRecOn <;> simp
            have hdrop := drop_swapRemove hrest
            generalize hs' : ({ (if (s.tasks e.taskIdx).state = .blocked then
                s.setState e.taskIdx .ready else s) with
              futexWaiters := (s.futexWaiters.set i (s.futexWaiters.getD
                (s.futexWaiters.length - 1) e)).dropLast } : Kernel) = s'
            have hstate (j : ℕ) : (s'.tasks j).state =
                if j = e.taskIdx ∧ (s.tasks j).state = .blocked then .ready
                else (s.tasks j).state := by
              subst hs'
              by_cases hj : j = e.taskIdx
              · subst hj
                by_cases hbe : (s.tasks e.taskIdx).state = .blocked <;> simp [hbe]
              · by_cases hbe : (s.tasks e.taskIdx).state = .blocked <;> simp [hbe, hj]
            have hwaiters : s'.futexWaiters.drop i = rest.getLast?.toList ++ rest.dropLast := by
              rw [← hdrop, ← hs']
            rw [ih (s := s') (by rw [hwaiters, hlen, hfuel])
              (by rw [hstate, if_neg fun h => hew h.1.symm, hb]), hwaiters]
            have hcount (before : List FutexWaiter) :=
              card_blockedSlots_cons (e := e) before hstate
            unfold Reaches
            constructor
            · rintro ⟨before, e', after, heq, he', hcard⟩
              refine ⟨e :: before, e', after, by rw [heq]; rfl, he', ?_⟩
              have hcard' := hcount before
              split_ifs at hcard hcard' <;> omega
            · rintro ⟨before, e', after, heq, he', hcard⟩
              cases before with
              | nil =>
                obtain ⟨rfl, -⟩ := List.cons.inj heq
                exact absurd he' hew
              | cons e'' before =>
                obtain ⟨rfl, htail⟩ := List.cons.inj heq
                refine ⟨before, e', after, htail, he', ?_⟩
                have hcard' := hcount before
                split_ifs at hcard' ⊢ <;> omega
        next hu =>
          have hdrop : s.futexWaiters.drop (i + 1) = rest := by
            rw [← List.drop_drop, hrest, List.drop_one, List.tail_cons]
          rw [ih (by rw [hdrop, hfuel]) hb, hdrop]
          rfl
    next hge =>
      rw [hb]
      refine iff_of_false (by decide) ?_
      rintro ⟨before, e, after, -, -, hcard⟩
      omega

end Futex

/-- How one slot's state may change under an operation that checks for `TASK_BLOCKED`. -/
private theorem enqueue_state (s : Kernel) (i w pid type len : ℕ) (data : ℕ → UInt8) :
    ((s.setTask i ((s.tasks i).enqueue pid type len data)).tasks w).state =
      if w = i ∧ (s.tasks w).state = .blocked then .ready else (s.tasks w).state := by
  rw [Kernel.setTask_apply]
  by_cases hw : w = i
  · subst hw
    simp only [if_true, true_and]
    rfl
  · simp only [hw, if_false, false_and]

/-- Every operation but `exit` leaves a state alone unless it wakes a blocked slot. -/
theorem WakeOp.state {s k : Kernel} {c : ℕ} {op : WakeOp} (hc : s.currentTask = some c)
    (h : op.apply s = some k) (hop : op ≠ .exit) (w : ℕ) :
    ((s.tasks w).state = .blocked ∧ Wakes s c w op ∧ (k.tasks w).state = .ready) ∨
      (¬ ((s.tasks w).state = .blocked ∧ Wakes s c w op) ∧
        (k.tasks w).state = (s.tasks w).state) := by
  cases op with
  | exit => exact absurd rfl hop
  | send p t d l =>
    obtain ⟨res, hres, rfl⟩ := Option.map_eq_some_iff.mp h
    rcases sysSend_cases hres with rfl | ⟨i, bytes, hi, hr, -, rfl⟩
    · refine .inr ⟨?_, rfl⟩
      rintro ⟨-, hi, hr⟩
      simp only [sysSend, hi, if_neg (Nat.not_le.mpr hr)] at hres
      obtain ⟨bytes, -, he⟩ := Option.map_eq_some_iff.mp hres
      exact absurd (Prod.mk.inj he).1 (by decide)
    · simp only [enqueue_state, Wakes, hi, Option.some.injEq]
      split
      next hw => exact .inl ⟨hw.2, ⟨hw.1.symm, hw.1 ▸ hr⟩, rfl⟩
      next hw => exact .inr ⟨fun hn => hw ⟨hn.2.1.symm, hn.1⟩, rfl⟩
  | keyboard sc =>
    obtain rfl := Option.some.inj h
    unfold keyboardIrq
    split
    next hn =>
      refine .inr ⟨?_, rfl⟩
      rintro ⟨-, hi, -⟩
      rw [hn] at hi
      cases hi
    next i hi =>
      split
      next hr =>
        simp only [enqueue_state, Wakes, hi, Option.some.injEq]
        split
        next hw => exact .inl ⟨hw.2, ⟨hw.1.symm, hw.1 ▸ hr⟩, rfl⟩
        next hw => exact .inr ⟨fun hn => hw ⟨hn.2.1.symm, hn.1⟩, rfl⟩
      next hr =>
        refine .inr ⟨?_, rfl⟩
        rintro ⟨-, hw, hr'⟩
        obtain rfl := Option.some.inj (hi.symm.trans hw)
        exact hr hr'
  | futexWake uaddr val =>
    obtain ⟨res, hres, rfl⟩ := Option.map_eq_some_iff.mp h
    simp only [sysFutex, hc, if_neg (by decide : ¬ (1 : ℤ) = 0), if_true] at hres
    obtain rfl := Option.some.inj hres
    have hwoken := futexWakeLoop_woken uaddr (toInt val) s.futexWaiters.length 0 0 s
    by_cases hb : (s.tasks w).state = .blocked
    · have hiff : ((futexWakeLoop uaddr (toInt val) s.futexWaiters.length 0 0 s).2.tasks w).state =
        .ready ↔ _ := futexWakeLoop_ready_iff _ rfl hb
      rw [sub_zero, List.drop_zero] at hiff
      by_cases hreach : Reaches s uaddr (toInt val) s.futexWaiters w
      · exact .inl ⟨hb, hreach, hiff.mpr hreach⟩
      · refine .inr ⟨fun h => hreach h.2, ?_⟩
        obtain ⟨st, l, he, -, -, hst⟩ := hwoken
        rw [he] at hiff ⊢
        exact (hst w).elim (fun h => absurd (hiff.mp h.2.2) hreach) And.right
    · exact .inr ⟨fun h => hb h.1, hwoken.state_kept hb⟩

/-- `exit` does not look at the waiter's state. -/
theorem sysExit_state {s : Kernel} {c : ℕ} (hc : s.currentTask = some c) (w : ℕ) :
    ((sysExit s).tasks w).state =
      if w = c then .exited
      else if (s.tasks c).waitIdx = some w then .ready else (s.tasks w).state := by
  rw [sysExit_eq hc]
  simp only [exitTasks]
  split <;> rfl

/-- A blocked slot becomes ready exactly when the operation is one that wakes it. -/
theorem WakeOp.ready_iff {s k : Kernel} {c w : ℕ} {op : WakeOp} (hc : s.currentTask = some c)
    (h : op.apply s = some k) (hb : (s.tasks w).state = .blocked) :
    (k.tasks w).state = .ready ↔ Wakes s c w op := by
  by_cases hop : op = .exit
  · subst hop
    obtain rfl := Option.some.inj h
    rw [sysExit_state hc, hb]
    by_cases hw : w = c
    · simp [hw, Wakes]
    · simp [hw, Wakes]
  · rcases WakeOp.state hc h hop w with ⟨-, hw, hr⟩ | ⟨hn, hs⟩
    · exact ⟨fun _ => hw, fun _ => hr⟩
    · constructor
      · intro hr
        rw [hs, hb] at hr
        cases hr
      · exact fun hw => absurd ⟨hb, hw⟩ hn

/-- An exited slot stays exited unless an exiting task has it recorded as its waiter. -/
theorem WakeOp.exited_iff {s k : Kernel} {c w : ℕ} {op : WakeOp} (hc : s.currentTask = some c)
    (h : op.apply s = some k) (he : (s.tasks w).state = .exited) :
    (k.tasks w).state = .exited ↔ (op = .exit → (s.tasks c).waitIdx = some w → w = c) := by
  by_cases hop : op = .exit
  · subst hop
    obtain rfl := Option.some.inj h
    rw [sysExit_state hc, he]
    by_cases hw : w = c
    · simp [hw]
    · by_cases hi : (s.tasks c).waitIdx = some w <;> simp [hw, hi]
  · rcases WakeOp.state hc h hop w with ⟨hb, -⟩ | ⟨-, hs⟩
    · rw [he] at hb
      cases hb
    · simp [hs, he, hop]

/-- A wake operation revives no exited slot exactly when it is not the exit of a task whose
recorded waiter is another, exited slot. -/
theorem exited_stays_iff {s k : Kernel} {c : ℕ} {op : WakeOp} (hc : s.currentTask = some c)
    (h : op.apply s = some k) :
    (∀ w, (s.tasks w).state = .exited → (k.tasks w).state = .exited) ↔
      (op = .exit → ∀ w, (s.tasks c).waitIdx = some w → w ≠ c → (s.tasks w).state ≠ .exited) := by
  constructor
  · intro hall hop w hi hwc he
    exact hwc ((WakeOp.exited_iff hc h he).mp (hall w he) hop hi)
  · intro hok w he
    refine (WakeOp.exited_iff hc h he).mpr fun hop hi => ?_
    by_contra hwc
    exact hok hop w hi hwc he

theorem exited_stays_iff_sample : ∃ x k, Reachable x ∧ WakeOp.exit.apply x.kernel = some k ∧
    ((∀ w, (x.kernel.tasks w).state = .exited → (k.tasks w).state = .exited) ↔
      (WakeOp.exit = .exit → ∀ w, (x.kernel.tasks 0).waitIdx = some w → w ≠ 0 →
        (x.kernel.tasks w).state ≠ .exited)) := by
  obtain ⟨x, r, use, fl, hk, hp, ht, -⟩ := sample_started
  have hc : x.kernel.currentTask = some 0 := congrArg TaskTable.current ht
  exact ⟨x, _, ⟨_, x, hk, .refl⟩, rfl, exited_stays_iff hc rfl⟩

/-- A thread that waits for its parent and is then killed by it is made ready by its exit. -/
theorem exit_revives_killed : ∃ x k w, Reachable x ∧ WakeOp.exit.apply x.kernel = some k ∧
    (x.kernel.tasks w).state = .exited ∧ (k.tasks w).state = .ready := by
  obtain ⟨x, y, r, hk, hr, hp, ht⟩ := sample_run
    [.call 7 1 0 0 0, .call 13 8 0 0 0] (by decide) rfl
  have hc : y.kernel.currentTask = some 0 := congrArg TaskTable.current ht
  have hs : (y.kernel.tasks 1).state = .exited := congrFun (congrArg TaskTable.state ht) 1
  have hw : (y.kernel.tasks 0).waitIdx = some 1 := congrFun (congrArg TaskTable.waitIdx ht) 0
  refine ⟨y, _, 1, ⟨_, x, hk, hr⟩, rfl, hs, ?_⟩
  rw [sysExit_state hc, if_neg (by decide), if_pos hw]

end Mukrn
