import Mukrn.Fat32.Reads

/-! The 11-byte names of directory entries. `to_8_3` with its three loops computes what the rest of
the model calls `to83`, and on names of 8.3 form it forgets nothing but the case of letters. -/
namespace Mukrn.Fat32

/-- The first loop of `to_8_3`: the index of the first dot before the end of the string, or -1. The
end of the list stands for the zero that ends the string. -/
def findDot : List UInt8 → ℕ → ℤ
  | [], _ => -1
  | c :: rest, i => if c = 0 then -1 else if c = 46 then i else findDot rest (i + 1)

/-- The copying loops: at most `n` bytes, up to the end of the string, go to `out` from `pos` on. -/
def copyUpper : List UInt8 → ℕ → ℕ → List UInt8 → List UInt8
  | _, _, 0, out => out
  | [], _, _ + 1, out => out
  | c :: rest, pos, n + 1, out =>
    if c = 0 then out else copyUpper rest (pos + 1) n (out.set pos (upper c))

/-- `to_8_3` loop by loop, on its array of 11 bytes. -/
def to83Loops (name : List UInt8) : List UInt8 :=
  let out := List.replicate 11 32
  let dot := findDot name 0
  let lim := if dot < 0 then 11 else dot
  let out := copyUpper name 0 (min lim 8).toNat out
  if 0 ≤ dot then copyUpper (name.drop (dot.toNat + 1)) 8 3 out else out

section Names

variable {base rest : List UInt8}

/-- A name without a dot. -/
theorem to83_plain (h : 46 ∉ base) :
    to83 base = padTo 8 ((base.take 8).map upper) ++ padTo 3 [] := by
  have hne (c : UInt8) (hc : c ∈ base) : decide (c ≠ 46) = true :=
    decide_eq_true fun he => h (he ▸ hc)
  have htake : (base ++ []).takeWhile (· ≠ 46) = base ++ [] := List.takeWhile_append_of_pos hne
  rw [List.append_nil] at htake
  rw [to83, htake, List.dropWhile_eq_nil_iff.mpr hne]
  rfl

/-- A name with its first dot behind `base`. -/
theorem to83_dotted (h : 46 ∉ base) : to83 (base ++ 46 :: rest) =
    padTo 8 ((base.take 8).map upper) ++ padTo 3 ((rest.take 3).map upper) := by
  have hne (c : UInt8) (hc : c ∈ base) : decide (c ≠ 46) = true :=
    decide_eq_true fun he => h (he ▸ hc)
  rw [to83, List.takeWhile_append_of_pos hne, List.dropWhile_append_of_pos hne]
  simp

end Names

section Loops

variable {name base rest s out : List UInt8}

theorem findDot_plain (h0 : 0 ∉ base) (h : 46 ∉ base) (i : ℕ) : findDot base i = -1 := by
  induction base generalizing i with
  | nil => rfl
  | cons c base ih =>
    simp only [List.mem_cons, not_or] at h0 h
    rw [findDot, if_neg (Ne.symm h0.1), if_neg (Ne.symm h.1), ih h0.2 h.2]

theorem findDot_dotted (h0 : 0 ∉ base) (h : 46 ∉ base) (i : ℕ) :
    findDot (base ++ 46 :: rest) i = ((i + base.length : ℕ) : ℤ) := by
  induction base generalizing i with
  | nil => simp [findDot]
  | cons c base ih =>
    simp only [List.mem_cons, not_or] at h0 h
    rw [List.cons_append, findDot, if_neg (Ne.symm h0.1), if_neg (Ne.symm h.1), ih h0.2 h.2,
      List.length_cons, Nat.add_right_comm, Nat.add_assoc]

/-- What the loop leaves in its array: the bytes before `pos`, those copied, and what was behind. -/
theorem copyUpper_eq (h0 : 0 ∉ s) {pos n : ℕ} (hn : pos + n ≤ out.length) :
    copyUpper s pos n out =
      out.take pos ++ (s.take n).map upper ++ out.drop (pos + (s.take n).length) := by
  induction n generalizing s pos out with
  | zero => simp [copyUpper]
  | succ n ih =>
    cases s with
    | nil => simp [copyUpper]
    | cons c rest =>
      simp only [List.mem_cons, not_or] at h0
      have hpos : pos < out.length := by omega
      have htake : (out.set pos (upper c)).take (pos + 1) = out.take pos ++ [upper c] := by
        rw [List.take_add_one, List.take_set_of_le le_rfl, List.getElem?_set_self hpos]
        rfl
      have hdrop : (out.set pos (upper c)).drop (pos + 1 + (rest.take n).length) =
          out.drop (pos + (rest.take n).length + 1) := by
        rw [List.drop_set_of_lt (by omega), Nat.add_right_comm]
      rw [copyUpper, if_neg (Ne.symm h0.1), ih h0.2 (by rw [List.length_set]; omega), htake, hdrop]
      simp [Nat.add_assoc]

/-- A field of blanks is filled from its start and stays padded. -/
theorem copyUpper_blank (h0 : 0 ∉ s) {n k : ℕ} (hn : n ≤ k) (front back : List UInt8) :
    copyUpper s front.length n (front ++ (List.replicate k 32 ++ back)) =
      front ++ (padTo k ((s.take n).map upper) ++ back) := by
  have hlen : (s.take n).length ≤ k := (List.length_take_le n s).trans hn
  rw [copyUpper_eq h0 (by simp; omega), List.take_left, List.drop_append,
    List.drop_append_of_le_length (by simpa using hlen), List.drop_replicate, padTo,
    List.length_map]
  simp

/-- On a string, which has no zero before its end, the loops compute `to83`. -/
theorem to83Loops_eq (h0 : 0 ∉ name) : to83Loops name = to83 name := by
  have hbase {n : ℕ} (hn : n ≤ 8) : copyUpper name 0 n (List.replicate 11 32) =
      padTo 8 ((name.take n).map upper) ++ List.replicate 3 32 :=
    copyUpper_blank h0 hn [] (List.replicate 3 32)
  by_cases hdot : 46 ∈ name
  · obtain ⟨base, rest, rfl, hb⟩ := List.eq_append_cons_of_mem hdot
    simp only [List.mem_append, List.mem_cons, not_or] at h0
    have hlim : (min (base.length : ℤ) 8).toNat = min base.length 8 := by omega
    have hfront : ((base ++ 46 :: rest).take (min base.length 8)) = base.take 8 := by
      rw [List.take_append_of_le_length (min_le_left _ _), List.take_eq_take_iff]
      omega
    have hback : (base ++ 46 :: rest).drop (base.length + 1) = rest := by simp [List.drop_append]
    have hext := copyUpper_blank h0.2.2 (le_refl 3) (padTo 8 ((base.take 8).map upper)) []
    rw [padTo_length (by simp), List.append_nil, List.append_nil] at hext
    rw [to83_dotted hb, to83Loops, findDot_dotted h0.1 hb, Nat.zero_add]
    simp only [Int.natCast_nonneg, if_true, Int.not_lt.mpr, if_false, Int.toNat_natCast, hlim]
    rw [hbase (min_le_right _ _), hfront, hback, hext]
  · rw [to83_plain hdot, to83Loops, findDot_plain h0 hdot]
    exact hbase le_rfl

end Loops

/-- A part of an 8.3 name: up to `n` bytes, at least one, none of them a zero, a dot or a blank. -/
structure NamePart (n : ℕ) where
  bytes : List UInt8
  nonempty : 1 ≤ bytes.length
  short : bytes.length ≤ n
  valid : ∀ c ∈ bytes, c ≠ 0 ∧ c ≠ 46 ∧ c ≠ 32

/-- A name of 8.3 form. -/
structure ShortName where
  base : NamePart 8
  ext : Option (NamePart 3)

/-- The name as it is written. -/
def ShortName.text (a : ShortName) : List UInt8 :=
  match a.ext with
  | none => a.base.bytes
  | some ext => a.base.bytes ++ 46 :: ext.bytes

/-- The name that the 11 bytes stand for: the base ends before the padding, the extension starts at
position 8. -/
def shortNameOf (entry : List UInt8) : List UInt8 :=
  let base := (entry.take 8).takeWhile (· ≠ 32)
  let ext := (entry.drop 8).takeWhile (· ≠ 32)
  if ext = [] then base else base ++ 46 :: ext

theorem upper_spec (c : UInt8) :
    (upper c = 46 ↔ c = 46) ∧ (upper c = 32 ↔ c = 32) ∧ upper (upper c) = upper c := by
  unfold upper
  grind

/-- The case of letters does not matter. -/
theorem to83_map_upper (name : List UInt8) : to83 (name.map upper) = to83 name := by
  have hdot : ((fun c : UInt8 => decide (c ≠ 46)) ∘ upper) = fun c => decide (c ≠ 46) := by
    funext c
    simp [(upper_spec c).1]
  have hupper : upper ∘ upper = upper := funext fun c => (upper_spec c).2.2
  simp only [to83, List.takeWhile_map, List.dropWhile_map, hdot, ← List.map_take, ← List.map_drop,
    List.map_map, hupper]

namespace NamePart

variable {n : ℕ} (p : NamePart n)

theorem not_dot : 46 ∉ p.bytes := fun h => (p.valid _ h).2.1 rfl

theorem take_bytes : p.bytes.take n = p.bytes := List.take_of_length_le p.short

/-- Padding is not confused with content. -/
theorem takeWhile_padTo : (padTo n (p.bytes.map upper)).takeWhile (· ≠ 32) = p.bytes.map upper := by
  have hne (c : UInt8) (hc : c ∈ p.bytes.map upper) : decide (c ≠ 32) = true := by
    obtain ⟨b, hb, rfl⟩ := List.mem_map.mp hc
    exact decide_eq_true fun h => (p.valid b hb).2.2 ((upper_spec b).2.1.mp h)
  rw [padTo, List.takeWhile_append_of_pos hne]
  simp

end NamePart

namespace ShortName

variable (a b : ShortName)

theorem no_zero : 0 ∉ a.text := by
  obtain ⟨base, ext⟩ := a
  have hzero {n : ℕ} (p : NamePart n) : 0 ∉ p.bytes := fun h => (p.valid _ h).1 rfl
  cases ext with
  | none => exact hzero base
  | some ext => simp [text, hzero base, hzero ext]

theorem shortNameOf_to83 : shortNameOf (to83 a.text) = a.text.map upper := by
  obtain ⟨base, ext⟩ := a
  have hlen : (padTo 8 (base.bytes.map upper)).length = 8 :=
    padTo_length (by rw [List.length_map]; exact base.short)
  cases ext with
  | none =>
    rw [text, to83_plain base.not_dot, base.take_bytes, shortNameOf, List.take_left' hlen,
      List.drop_left' hlen, base.takeWhile_padTo]
    rfl
  | some ext =>
    have hne : ext.bytes.map upper ≠ [] := by
      apply List.ne_nil_of_length_pos
      rw [List.length_map]
      exact ext.nonempty
    rw [text, to83_dotted base.not_dot, base.take_bytes, ext.take_bytes, shortNameOf,
      List.take_left' hlen, List.drop_left' hlen, base.takeWhile_padTo, ext.takeWhile_padTo]
    simp only [if_neg hne, List.map_append, List.map_cons]
    rfl

end ShortName

/-- `to_8_3` maps two names of 8.3 form to the same bytes exactly when they differ in the case of
letters at most, and the name in capitals can be read off the result. -/
theorem to83_identifies_case (a b : ShortName) :
    (to83Loops a.text = to83Loops b.text ↔ a.text.map upper = b.text.map upper) ∧
      shortNameOf (to83Loops a.text) = a.text.map upper := by
  rw [to83Loops_eq a.no_zero, to83Loops_eq b.no_zero]
  refine ⟨⟨fun h => ?_, fun h => ?_⟩, a.shortNameOf_to83⟩
  · rw [← a.shortNameOf_to83, h, b.shortNameOf_to83]
  · rw [← to83_map_upper a.text, h, to83_map_upper]

-- readme.c and README.C
example : to83Loops [114, 101, 97, 100, 109, 101, 46, 99] =
    [82, 69, 65, 68, 77, 69, 32, 32, 67, 32, 32] ∧
    to83Loops [82, 69, 65, 68, 77, 69, 46, 67] =
    to83Loops [114, 101, 97, 100, 109, 101, 46, 99] := by
  decide

end Mukrn.Fat32
