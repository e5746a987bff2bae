import Mathlib.Data.List.Basic
import Mathlib.Data.Int.ModEq
import Mathlib.Logic.Function.Basic

/-! A ring of `n` slots with a write cursor, a read cursor and a count, and its view as a
first-in first-out list. -/
namespace RingBuffer

structure Ring (α : Type*) where
  slots : ℕ → α
  head : ℕ
  tail : ℕ
  count : ℕ

variable {α : Type*} {n : ℕ} {r : Ring α} {a : α}

/-- The three cursors agree. -/
structure Ring.Valid (n : ℕ) (r : Ring α) : Prop where
  count_le : r.count ≤ n
  head_lt : r.head < n
  tail_lt : r.tail < n
  head_eq : r.head = (r.tail + r.count) % n

/-- Occupied slots from the read cursor on. -/
def Ring.contents (n : ℕ) (r : Ring α) : List α :=
  (List.range r.count).map fun k => r.slots ((r.tail + k) % n)

def Ring.push (n : ℕ) (r : Ring α) (a : α) : Ring α :=
  { r with
    slots := Function.update r.slots r.head a
    head := (r.head + 1) % n
    count := r.count + 1 }

def Ring.pop (n : ℕ) (r : Ring α) : Ring α :=
  { r with tail := (r.tail + 1) % n, count := r.count - 1 }

theorem Ring.Valid.push (h : r.Valid n) (hc : r.count < n) : (r.push n a).Valid n := by
  have hn : 0 < n := by omega
  refine ⟨hc, Nat.mod_lt _ hn, h.tail_lt, ?_⟩
  simp only [Ring.push, h.head_eq, Nat.mod_add_mod, Nat.add_assoc]

theorem Ring.Valid.pop (h : r.Valid n) (hc : 0 < r.count) : (r.pop n).Valid n := by
  have hn : 0 < n := Nat.zero_lt_of_lt h.tail_lt
  have hl := h.count_le
  refine ⟨by simp only [Ring.pop]; omega, h.head_lt, Nat.mod_lt _ hn, ?_⟩
  simp only [Ring.pop, h.head_eq, Nat.mod_add_mod]
  congr 1
  omega

/-- Two distances below `n` from one cursor meet only when they are equal. -/
private theorem offset_ne {t j k : ℕ} (hj : j < n) (hk : k < n) (hjk : j ≠ k) :
    (t + j) % n ≠ (t + k) % n := by
  intro he
  have hm : j % n = k % n := Nat.ModEq.add_left_cancel' t he
  rw [Nat.mod_eq_of_lt hj, Nat.mod_eq_of_lt hk] at hm
  exact hjk hm

/-- Pushing appends, because the slot written is none of the occupied ones. -/
theorem Ring.contents_push (h : r.Valid n) (hc : r.count < n) :
    (r.push n a).contents n = r.contents n ++ [a] := by
  simp only [Ring.contents, Ring.push, List.range_succ, List.map_append, List.map_cons,
    List.map_nil]
  congr 1
  · apply List.map_congr_left
    intro k hk
    have hk := List.mem_range.mp hk
    rw [Function.update_of_ne]
    rw [h.head_eq]
    exact offset_ne (by omega) hc (by omega)
  · rw [← h.head_eq, Function.update_self]

/-- Popping removes the element at the read cursor. -/
theorem Ring.contents_pop (hc : 0 < r.count) :
    r.contents n = r.slots (r.tail % n) :: (r.pop n).contents n := by
  obtain ⟨k, hk⟩ : ∃ k, r.count = k + 1 := ⟨r.count - 1, by omega⟩
  simp only [Ring.contents, Ring.pop, hk, List.range_succ_eq_map, List.map_cons, List.map_map,
    Nat.add_zero, Nat.add_sub_cancel]
  congr 1
  apply List.map_congr_left
  intro j _
  simp only [Function.comp_apply, Nat.mod_add_mod]
  congr 2
  omega

/-- Moving the write cursor by two over one written slot pushes the old contents of the next. -/
theorem Ring.push_stale (h : r.Valid n) (hc : r.count + 2 ≤ n) :
    { r with
      slots := Function.update r.slots r.head a
      head := ((r.head + 1) % n + 1) % n
      count := r.count + 1 + 1 } = (r.push n a).push n (r.slots ((r.head + 1) % n)) := by
  have hne : (r.head + 1) % n ≠ r.head := by
    have hne : (r.head + 1) % n ≠ (r.head + 0) % n := offset_ne (by omega) (by omega) (by decide)
    simp only [Nat.add_zero, Nat.mod_eq_of_lt h.head_lt] at hne
    exact hne
  have hslot : Function.update r.slots r.head a ((r.head + 1) % n) = r.slots ((r.head + 1) % n) :=
    Function.update_of_ne hne ..
  simp only [Ring.push, Ring.mk.injEq, and_true]
  rw [← hslot, Function.update_eq_self]

theorem Ring.length_contents : (r.contents n).length = r.count := by simp [Ring.contents]

end RingBuffer
