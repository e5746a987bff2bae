import Mathlib.Data.Nat.Basic
import Mathlib.Tactic.Ring

/-! Byte-addressed memory with little-endian words. A block write is one update of
the memory function, so the depth of a state does not grow with the block's length. -/
namespace ByteMemory

abbrev Mem := ℕ → UInt8

/-- Write `n` consecutive bytes from `a` on, the `i`-th of them `f i`. -/
def fill (m : Mem) (a n : ℕ) (f : ℕ → UInt8) : Mem :=
  fun x => if a ≤ x ∧ x < a + n then f (x - a) else m x

/-- The little-endian value of `n` bytes. -/
def load (m : Mem) (a : ℕ) : ℕ → ℕ
  | 0 => 0
  | n + 1 => (m a).toNat + 256 * load m (a + 1) n

/-- The `i`-th little-endian byte of `v`. -/
def byteAt (v i : ℕ) : UInt8 := UInt8.ofNat (v / 256 ^ i)

def store (m : Mem) (a n v : ℕ) : Mem := fill m a n (byteAt v)

abbrev load64 (m : Mem) (a : ℕ) : ℕ := load m a 8
abbrev store64 (m : Mem) (a v : ℕ) : Mem := store m a 8 v

/-- Write an array of `n` 64-bit words, the `i`-th of them `f i`. -/
def storeWords (m : Mem) (a n : ℕ) (f : ℕ → ℕ) : Mem :=
  fill m a (8 * n) (fun i => byteAt (f (i / 8)) (i % 8))

theorem fill_inside {m : Mem} {a n : ℕ} {f : ℕ → UInt8} {x : ℕ} (h : a ≤ x) (h' : x < a + n) :
    fill m a n f x = f (x - a) := if_pos ⟨h, h'⟩

theorem fill_outside {m : Mem} {a n : ℕ} {f : ℕ → UInt8} {x : ℕ} (h : x < a ∨ a + n ≤ x) :
    fill m a n f x = m x := if_neg (by omega)

/-- Equal bytes at two places have equal values. -/
theorem load_copy {m m' : Mem} {a b n : ℕ} (h : ∀ i < n, m (a + i) = m' (b + i)) :
    load m a n = load m' b n := by
  induction n generalizing a b with
  | zero => rfl
  | succ n ih =>
    have h0 := h 0 (by omega)
    have ht : load m (a + 1) n = load m' (b + 1) n := by
      apply ih
      intro i hi
      have hs := h (i + 1) (by omega)
      rwa [show a + (i + 1) = a + 1 + i by omega, show b + (i + 1) = b + 1 + i by omega] at hs
    simp only [Nat.add_zero] at h0
    simp only [load, h0, ht]

theorem load_congr {m m' : Mem} {a n : ℕ} (h : ∀ i < n, m (a + i) = m' (a + i)) :
    load m a n = load m' a n := load_copy h

/-- Equal values have equal bytes. -/
theorem eq_of_load_eq {m m' : Mem} {a b n : ℕ} (h : load m a n = load m' b n) :
    ∀ i < n, m (a + i) = m' (b + i) := by
  induction n generalizing a b with
  | zero => exact fun i hi => absurd hi (Nat.not_lt_zero i)
  | succ n ih =>
    have ha := (m a).toNat_lt
    have hb := (m' b).toNat_lt
    simp only [load] at h
    intro i hi
    cases i with
    | zero =>
      apply UInt8.toNat_inj.mp
      simp only [Nat.add_zero]
      omega
    | succ i =>
      have ht := ih (a := a + 1) (b := b + 1) (by omega) i (Nat.lt_of_succ_lt_succ hi)
      rwa [show a + (i + 1) = a + 1 + i by omega, show b + (i + 1) = b + 1 + i by omega]

theorem load_lt (m : Mem) (a n : ℕ) : load m a n < 256 ^ n := by
  induction n generalizing a with
  | zero => simp [load]
  | succ n ih =>
    have hb := (m a).toNat_lt
    have ht := ih (a + 1)
    simp only [load, pow_succ]
    omega

theorem load64_lt (m : Mem) (a : ℕ) : load64 m a < 2 ^ 64 := by
  have h := load_lt m a 8
  norm_num at h ⊢
  exact h

/-- Reading next to a block write sees the old memory. -/
theorem load_fill_outside {m : Mem} {a n b k : ℕ} {f : ℕ → UInt8}
    (h : b + k ≤ a ∨ a + n ≤ b) : load (fill m a n f) b k = load m b k :=
  load_congr fun i hi => fill_outside (by omega)

private theorem load_bytes (v a n k : ℕ) (m : Mem) (h : ∀ i < n, m (a + i) = byteAt v (k + i)) :
    load m a n = v / 256 ^ k % 256 ^ n := by
  induction n generalizing a k with
  | zero => simp [load, Nat.mod_one]
  | succ n ih =>
    have h0 := h 0 (by omega)
    simp only [Nat.add_zero] at h0
    have ht := ih (a + 1) (k + 1) (fun i hi => by
      have hs := h (i + 1) (by omega)
      rwa [show a + (i + 1) = a + 1 + i by omega, show k + (i + 1) = k + 1 + i by omega] at hs)
    simp only [load, h0, ht, byteAt, UInt8.toNat_ofNat']
    have hd : v / 256 ^ (k + 1) = v / 256 ^ k / 256 := by
      rw [Nat.div_div_eq_div_mul, Nat.pow_succ]
    rw [hd, Nat.pow_succ 256 n, Nat.mul_comm (256 ^ n) 256, Nat.mod_mul]

theorem load_store (m : Mem) (a n v : ℕ) : load (store m a n v) a n = v % 256 ^ n := by
  have h := load_bytes v a n 0 (store m a n v) (fun i hi => by
    rw [store, fill_inside (by omega) (by omega), Nat.add_sub_cancel_left, Nat.zero_add])
  simpa using h

/-- Storing what is there already changes nothing. -/
theorem store_load (m : Mem) (a n : ℕ) : store m a n (load m a n) = m := by
  have hload : load (store m a n (load m a n)) a n = load m a n := by
    rw [load_store, Nat.mod_eq_of_lt (load_lt m a n)]
  funext x
  by_cases hx : a ≤ x ∧ x < a + n
  · have hbyte := eq_of_load_eq hload (x - a) (by omega)
    rwa [Nat.add_sub_of_le hx.1] at hbyte
  · exact fill_outside (by omega)

theorem load_store_outside {m : Mem} {a n v b k : ℕ} (h : b + k ≤ a ∨ a + n ≤ b) :
    load (store m a n v) b k = load m b k := load_fill_outside h

theorem load64_store64 {m : Mem} {a v : ℕ} (hv : v < 2 ^ 64) : load64 (store64 m a v) a = v := by
  rw [load64, store64, load_store, Nat.mod_eq_of_lt]
  norm_num at hv ⊢
  exact hv

theorem load64_fill_zero {m : Mem} {a n b : ℕ} (h : a ≤ b) (h' : b + 8 ≤ a + n) :
    load64 (fill m a n fun _ => 0) b = 0 := by
  have hz := load_bytes 0 b 8 0 (fill m a n fun _ => 0) (fun i hi => by
    rw [fill_inside (by omega) (by omega)]
    simp [byteAt])
  simpa using hz

/-- The words of an array write are read back at their indices. -/
theorem load64_storeWords {m : Mem} {a n i : ℕ} {f : ℕ → ℕ} (hi : i < n) :
    load64 (storeWords m a n f) (a + 8 * i) = f i % 2 ^ 64 := by
  have h := load_bytes (f i) (a + 8 * i) 8 0 (storeWords m a n f) (fun j hj => by
    rw [storeWords, fill_inside (by omega) (by omega)]
    have hd : (a + 8 * i + j - a) / 8 = i := by omega
    have hm : (a + 8 * i + j - a) % 8 = 0 + j := by omega
    rw [hd, hm])
  rw [load64, h]
  norm_num

theorem storeWords_outside {m : Mem} {a n x : ℕ} {f : ℕ → ℕ} (h : x < a ∨ a + 8 * n ≤ x) :
    storeWords m a n f x = m x := fill_outside h

theorem load_storeWords_outside {m : Mem} {a n b k : ℕ} {f : ℕ → ℕ}
    (h : b + k ≤ a ∨ a + 8 * n ≤ b) : load (storeWords m a n f) b k = load m b k :=
  load_fill_outside h

end ByteMemory
