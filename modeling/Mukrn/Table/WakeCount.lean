import Mathlib.Algebra.Order.Group.Multiset
import Mathlib.Data.Finset.Card
import Mukrn.Table.Futex

/-! What `FUTEX_WAKE` reports: the count it returns, the entries it takes out of the table, and when
none of its address is left. -/
namespace Mukrn
section Loop

variable {s k : Kernel} {c uaddr : ℕ}

/-- The tasks of `moved` are those that were blocked and are now ready. -/
def MovedTasks (s k : Kernel) (moved : Finset ℕ) : Prop :=
  ∀ j, j ∈ moved ↔ (s.tasks j).state = .blocked ∧ (k.tasks j).state = .ready

theorem MovedTasks.refl (s : Kernel) : MovedTasks s s ∅ := by
  intro j
  constructor
  · intro hj
    exact absurd hj (Finset.notMem_empty j)
  · rintro ⟨hb, hr⟩
    exact absurd (hb.symm.trans hr) (by decide)

/-- A slot made ready ahead of a wake counts once, whatever entries the table still has for it. -/
theorem MovedTasks.insert {moved : Finset ℕ} {i : ℕ} {l : List FutexWaiter}
    (hi : (s.tasks i).state = .blocked)
    (hw : Woken uaddr { s.setState i .ready with futexWaiters := l } k)
    (h : MovedTasks { s.setState i .ready with futexWaiters := l } k moved) :
    i ∉ moved ∧ MovedTasks s k (insert i moved) := by
  have hstate (j : ℕ) : ({ s.setState i .ready with futexWaiters := l }.tasks j).state =
      if j = i then .ready else (s.tasks j).state := by
    change ((s.setState i .ready).tasks j).state = _
    rw [Kernel.setState_apply]
  have hready : ({ s.setState i .ready with futexWaiters := l }.tasks i).state = .ready := by
    rw [hstate, if_pos rfl]
  have hnot : ({ s.setState i .ready with futexWaiters := l }.tasks i).state ≠ .blocked := by
    rw [hready]
    decide
  constructor
  · intro hmem
    exact hnot ((h i).mp hmem).1
  · intro j
    rw [Finset.mem_insert, h j, hstate]
    by_cases hj : j = i
    · subst hj
      have hk := (hw.state_kept hnot).trans hready
      simp [hi, hk]
    · simp [hj]

/-- The count goes up by one for each task that becomes ready, and stops at the bound. -/
theorem futexWakeLoop_count (uaddr : ℕ) (val : ℤ) (fuel i : ℕ) (woken : ℤ) (s : Kernel) :
    ∃ moved, MovedTasks s (futexWakeLoop uaddr val fuel i woken s).2 moved ∧
      (futexWakeLoop uaddr val fuel i woken s).1 = woken + moved.card ∧
      (futexWakeLoop uaddr val fuel i woken s).1 ≤ max woken val := by
  induction fuel generalizing i woken s with
  | zero => exact ⟨∅, .refl s, by simp [futexWakeLoop], le_max_left _ _⟩
  | succ fuel ih =>
    unfold futexWakeLoop
    split
    next hlt =>
      split
      next => exact ⟨∅, .refl s, by simp, le_max_left _ _⟩
      next w hw =>
        split
        next hu =>
          by_cases hb : (s.tasks w.taskIdx).state = .blocked
          · simp only [hb, if_true]
            obtain ⟨moved, hm, hcount, hle⟩ := ih i (woken + 1) _
            obtain ⟨hnot, hins⟩ := hm.insert hb (futexWakeLoop_woken uaddr val fuel i _ _)
            refine ⟨_, hins, ?_, hle.trans ?_⟩
            · rw [hcount, Finset.card_insert_of_notMem hnot]
              push_cast
              ring
            · rw [max_eq_right (by omega : woken + 1 ≤ val)]
              exact le_max_right _ _
          · simp only [hb, if_false]
            obtain ⟨moved, hm, hcount⟩ := ih i woken { s with futexWaiters :=
              (s.futexWaiters.set i (s.futexWaiters.getD (s.futexWaiters.length - 1) w)).dropLast }
            exact ⟨moved, hm, hcount⟩
        next => exact ih (i + 1) woken s
    next => exact ⟨∅, .refl s, by simp, le_max_left _ _⟩

/-- What a wake takes out of the table is of its address, and every state it changes is that of a
blocked task with such an entry. -/
theorem Woken.removed (h : Woken uaddr s k) :
    ∃ removed : Multiset FutexWaiter, removed ≤ s.futexWaiters ∧
      (k.futexWaiters : Multiset FutexWaiter) = s.futexWaiters - removed ∧
      (∀ e ∈ removed, e.uaddr = uaddr) ∧
      ∀ j, (k.tasks j).state ≠ (s.tasks j).state →
        (s.tasks j).state = .blocked ∧ (k.tasks j).state = .ready ∧
          ∃ e ∈ removed, e.taskIdx = j := by
  obtain ⟨st, l, rfl, hle, hother, hst⟩ := h
  have hl : (l : Multiset FutexWaiter) ≤ s.futexWaiters := by
    rw [Multiset.le_iff_count]
    intro e
    simpa only [Multiset.coe_count] using hle e
  have hmem (e : FutexWaiter) : e ∈ (s.futexWaiters : Multiset FutexWaiter) - l ↔
      l.count e < s.futexWaiters.count e := by
    rw [← Multiset.count_pos, Multiset.count_sub, Multiset.coe_count, Multiset.coe_count]
    omega
  refine ⟨s.futexWaiters - l, Multiset.sub_le_self _ _, ?_, ?_, ?_⟩
  · exact (tsub_tsub_cancel_of_le hl).symm
  · intro e he
    by_contra hne
    have hlt := (hmem e).mp he
    rw [hother e hne] at hlt
    exact lt_irrefl _ hlt
  · intro j hj
    rcases hst j with ⟨hb, ⟨e, he, hlt⟩, hr⟩ | ⟨-, hsame⟩
    · exact ⟨hb, hr, e, (hmem e).mpr hlt, he⟩
    · exact absurd hsame hj

end Loop

private theorem bmod_le_self (n : ℕ) {m : ℕ} (hm : 0 < m) : Int.bmod n m ≤ n := by
  have hmod : (n : ℤ) % (m : ℤ) ≤ n := by
    exact_mod_cast Nat.mod_le n m
  rw [Int.bmod_def]
  split <;> omega

theorem toInt_le (n : ℕ) : toInt n ≤ n := by
  exact bmod_le_self n (Nat.two_pow_pos 32)

private theorem bmod_neg {n m : ℕ} (h : m ≤ 2 * n) (hlt : n < m) : Int.bmod n m < 0 := by
  have hmod : (n : ℤ) % (m : ℤ) = n := by
    exact_mod_cast Nat.mod_eq_of_lt hlt
  rw [Int.bmod_def, hmod]
  split <;> omega

theorem toInt_neg {n : ℕ} (h : 2 ^ 31 ≤ n) (hlt : n < 2 ^ 32) : toInt n < 0 := by
  apply bmod_neg _ hlt
  omega

/-- A wake returns the number of tasks it makes ready, at most `val`. It takes entries for its
address out of the table and leaves all others, and a task whose state it changes was blocked and
had an entry that went. -/
theorem futex_wake_sound {s : Kernel} {c : ℕ} (hc : s.currentTask = some c) (uaddr val : ℕ) :
    ∃ (moved : Finset ℕ) (removed : Multiset FutexWaiter) (k : Kernel),
      sysFutex s uaddr 1 val = some ((moved.card : ℤ), k) ∧ moved.card ≤ val ∧
      (∀ j, j ∈ moved ↔ (s.tasks j).state = .blocked ∧ (k.tasks j).state = .ready) ∧
      (∀ e ∈ removed, e.uaddr = uaddr) ∧ removed ≤ s.futexWaiters ∧
      (k.futexWaiters : Multiset FutexWaiter) = s.futexWaiters - removed ∧
      ∀ j, (k.tasks j).state ≠ (s.tasks j).state → j ∈ moved ∧ ∃ e ∈ removed, e.taskIdx = j := by
  have hcall := sysFutex_wake hc uaddr val
  have hwoken := futexWakeLoop_woken uaddr (toInt val) s.futexWaiters.length 0 0 s
  obtain ⟨moved, hmoved, hcount, hle⟩ :=
    futexWakeLoop_count uaddr (toInt val) s.futexWaiters.length 0 0 s
  generalize futexWakeLoop uaddr (toInt val) s.futexWaiters.length 0 0 s = res at *
  obtain ⟨n, k⟩ := res
  simp only [zero_add] at hcount hle
  subst hcount
  obtain ⟨removed, hsub, hleft, haddr, hstate⟩ := hwoken.removed
  refine ⟨moved, removed, k, hcall, ?_, hmoved, haddr, hsub, hleft, ?_⟩
  · have hint := toInt_le val
    omega
  · intro j hj
    obtain ⟨hb, hr, hentry⟩ := hstate j hj
    exact ⟨(hmoved j).mpr ⟨hb, hr⟩, hentry⟩

theorem futex_wake_sound_sample : ∃ x moved removed k, Reachable x ∧
    x.kernel.currentTask = some 0 ∧
    sysFutex x.kernel 0x10F000 1 1 = some ((Finset.card moved : ℤ), k) ∧
    (∀ j, j ∈ moved ↔ (x.kernel.tasks j).state = .blocked ∧ (k.tasks j).state = .ready) ∧
    (k.futexWaiters : Multiset FutexWaiter) = x.kernel.futexWaiters - removed := by
  obtain ⟨x, y, z, r, v, hk, hxy, -, hyz, -, -, -, hc, -⟩ := sample_futexWaiting
  have hz : Reachable z := ⟨_, x, hk, .tail (.tail .refl trivial hxy) trivial hyz⟩
  obtain ⟨moved, removed, k, hcall, -, hmoved, -, -, hleft, -⟩ :=
    futex_wake_sound hc 0x10F000 1
  exact ⟨z, moved, removed, k, hz, hc, hcall, hmoved, hleft⟩

/-- No entry for the address is left, and every task that waited for it is ready. -/
def WokenAll (s k : Kernel) (uaddr : ℕ) : Prop :=
  (∀ e ∈ k.futexWaiters, e.uaddr ≠ uaddr) ∧
  ∀ e ∈ s.futexWaiters, e.uaddr = uaddr → (s.tasks e.taskIdx).state = .blocked →
    (k.tasks e.taskIdx).state = .ready

/-- When no entry for the address is left, all that were there have gone. -/
theorem Woken.all {s k : Kernel} {uaddr : ℕ} (h : Woken uaddr s k)
    (hleft : ∀ e ∈ k.futexWaiters, e.uaddr ≠ uaddr) : WokenAll s k uaddr := by
  refine ⟨hleft, fun e he hu hb => ?_⟩
  obtain ⟨st, l, rfl, -, -, hst⟩ := h
  rcases hst e.taskIdx with ⟨-, -, hr⟩ | ⟨hn, -⟩
  · exact hr
  · have hgone : l.count e = 0 := List.count_eq_zero.mpr fun hmem => hleft e hmem hu
    exact absurd ⟨hb, e, rfl, hgone ▸ List.count_pos_iff.mpr he⟩ hn

/-- A wake that returns less than `val` has woken all waiters on its address exactly when `val` is
not negative as a C `int`, or nobody waits there. -/
theorem futex_wake_complete_iff {s : Kernel} {c : ℕ} (hc : s.currentTask = some c)
    (uaddr : ℕ) {val : ℕ} (hval : val < 2 ^ 32) :
    (∀ res, sysFutex s uaddr 1 val = some res → res.1 < val → WokenAll s res.2 uaddr) ↔
      (val < 2 ^ 31 ∨ ∀ e ∈ s.futexWaiters, e.uaddr ≠ uaddr) := by
  have hcall := sysFutex_wake hc uaddr val
  have hwoken := futexWakeLoop_woken uaddr (toInt val) s.futexWaiters.length 0 0 s
  constructor
  · intro h
    by_contra hcond
    obtain ⟨hbig, hentry⟩ := not_or.mp hcond
    -- the bound is negative, so the loop does not start
    have hneg := toInt_neg (Nat.not_lt.mp hbig) hval
    have hstop (fuel : ℕ) : futexWakeLoop uaddr (toInt val) fuel 0 0 s = (0, s) := by
      cases fuel with
      | zero => rfl
      | succ fuel =>
        unfold futexWakeLoop
        rw [if_neg (by omega)]
    rw [hstop] at hcall
    exact hentry (h _ hcall (by simp only; omega)).1
  · intro hcond res hres hlt
    obtain rfl := Option.some.inj (hcall.symm.trans hres)
    apply hwoken.all
    rcases hcond with hsmall | hnone
    · rw [← toInt_of_lt hsmall] at hlt
      exact futexWakeLoop_removes uaddr _ _ 0 0 le_rfl (.inl hlt)
        fun j hj => absurd hj (Nat.not_lt_zero j)
    · intro e he
      exact hnone e (hwoken.subperm.subset he)

theorem futex_wake_complete_iff_sample : ∃ x, Reachable x ∧ x.kernel.currentTask = some 0 ∧
    x.kernel.futexWaiters = [⟨0x10F000, 1⟩] ∧
    ∀ res, sysFutex x.kernel 0x10F000 1 2 = some res → res.1 < (2 : ℕ) →
      WokenAll x.kernel res.2 0x10F000 := by
  obtain ⟨x, y, z, r, v, hk, hxy, -, hyz, -, -, -, hc, -, -, hw, -⟩ := sample_futexWaiting
  have hz : Reachable z := ⟨_, x, hk, .tail (.tail .refl trivial hxy) trivial hyz⟩
  exact ⟨z, hz, hc, hw, (futex_wake_complete_iff hc 0x10F000 (by decide)).mpr (.inl (by decide))⟩

/-- A wake of all waiters, written as the largest count, returns 0 and wakes nobody. -/
theorem futex_wake_all_wakes_none : ∃ x, Reachable x ∧ x.kernel.currentTask = some 0 ∧
    sysFutex x.kernel 0x10F000 1 (2 ^ 32 - 1) = some (0, x.kernel) ∧
    x.kernel.futexWaiters = [⟨0x10F000, 1⟩] ∧ (x.kernel.tasks 1).state = .blocked := by
  obtain ⟨x, y, z, r, v, hk, hxy, -, hyz, -, -, -, hc, -, hb, hw, -⟩ := sample_futexWaiting
  have hz : Reachable z := ⟨_, x, hk, .tail (.tail .refl trivial hxy) trivial hyz⟩
  have hint : toInt (2 ^ 32 - 1) = -1 := by decide +kernel
  refine ⟨z, hz, hc, ?_, hw, hb⟩
  rw [sysFutex_wake hc, hint, hw]
  rfl

end Mukrn
