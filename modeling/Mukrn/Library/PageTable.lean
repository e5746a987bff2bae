import Mathlib.Data.List.Basic
import Mukrn.Library.ByteMemory

/-! Four-level page tables with 64-bit entries in byte memory: the processor's walk, and trees
of tables in which every table page knows its root and the indices that lead to it. -/
namespace PageTable
open ByteMemory

/-- The nine index bits of an address at a level; level 3 is the root's. -/
def index (l va : ℕ) : ℕ := va / 2 ^ (12 + 9 * l) % 512

abbrev entry (m : Mem) (table i : ℕ) : ℕ := load64 m (table + 8 * i)

/-- Bit 0 of an entry. -/
def present (e : ℕ) : Bool := e % 2 == 1

/-- Bit 7 of an entry, the page-size bit. -/
def huge (e : ℕ) : Bool := e / 128 % 2 == 1

/-- The entry without its low twelve bits. -/
def frameOf (e : ℕ) : ℕ := e / 4096 * 4096

/-- The address a leaf entry of a level maps `va` to. -/
def leaf (l e va : ℕ) : ℕ := e / 2 ^ (12 + 9 * l) * 2 ^ (12 + 9 * l) + va % 2 ^ (12 + 9 * l)

/-- The walk from a table of a level. `ok` says which entries are followed: present ones, or
those that also grant an access. Entries hold no address bits above the physical address
width, so none are masked. -/
def walk (ok : ℕ → Bool) (m : Mem) (va : ℕ) : ℕ → ℕ → Option ℕ
  | 0, table =>
    let e := entry m table (index 0 va)
    if ok e then some (leaf 0 e va) else none
  | l + 1, table =>
    let e := entry m table (index (l + 1) va)
    if !ok e then none
    else if l < 2 && huge e then some (leaf (l + 1) e va)
    else walk ok m va l (frameOf e)

/-- A kind of access, decided by the low three bits: only present entries grant it, and an
entry with all three bits set does. -/
structure Access (ok : ℕ → Bool) : Prop where
  present : ∀ e, ok e → present e
  bits : ∀ e, ok e = ok (e % 8)
  full : ok 7

theorem access_present : Access present :=
  ⟨fun _ h => h, fun e => by simp only [present, show e % 8 % 2 = e % 2 by omega], rfl⟩

theorem index_lt (l va : ℕ) : index l va < 512 := Nat.mod_lt _ (by decide)

/-- For each table page its root and the indices from there. -/
abbrev Shape := ℕ → Option (ℕ × List ℕ)

/-- What an entry may hold: no 1 GiB pages, children where the shape says, and a vacant
entry of the third level has no address bits. -/
structure EntryOk (sh : Shape) (r : ℕ) (p : List ℕ) (i e : ℕ) : Prop where
  flat : p.length = 1 → present e → huge e = false
  child : present e → ¬ (p.length = 2 ∧ huge e) → sh (frameOf e) = some (r, p ++ [i])
  vacant : p.length = 2 → present e = false → huge e = false → frameOf e = 0

/-- Every table's entries agree with the shape. Last-level entries are not constrained. -/
structure Tree (sh : Shape) (m : Mem) : Prop where
  aligned : ∀ t r p, sh t = some (r, p) → t % 4096 = 0 ∧ 0 < t ∧ t < 2 ^ 64
  root : ∀ t r, sh t = some (r, []) → t = r
  entries : ∀ t r p, sh t = some (r, p) → p.length < 3 →
    ∀ i < 512, EntryOk sh r p i (entry m t i)

/-- What a walk relies on: the present entries of a table that are no leaves lead where the shape
says, and there are no 1 GiB pages. -/
structure Linked (sh : Shape) (m : Mem) : Prop where
  aligned : ∀ t r p, sh t = some (r, p) → t % 4096 = 0
  flat : ∀ t r p, sh t = some (r, p) → p.length = 1 → ∀ i < 512, present (entry m t i) →
    huge (entry m t i) = false
  child : ∀ t r p, sh t = some (r, p) → p.length < 3 → ∀ i < 512, present (entry m t i) →
    ¬ (p.length = 2 ∧ huge (entry m t i)) → sh (frameOf (entry m t i)) = some (r, p ++ [i])

theorem Tree.linked {sh : Shape} {m : Mem} (hT : Tree sh m) : Linked sh m := by
  refine ⟨fun t r p ht => (hT.aligned t r p ht).1, fun t r p ht hp i hi => ?_,
    fun t r p ht hp i hi => (hT.entries t r p ht hp i hi).child⟩
  exact (hT.entries t r p ht (by omega) i hi).flat hp

/-- Two entries in table pages are the same or do not overlap. -/
theorem entry_disjoint {t t' i i' : ℕ} (ht : t % 4096 = 0) (ht' : t' % 4096 = 0) (hi : i < 512)
    (hi' : i' < 512) (hne : ¬ (t' = t ∧ i' = i)) :
    t' + 8 * i' + 8 ≤ t + 8 * i ∨ t + 8 * i + 8 ≤ t' + 8 * i' := by omega

/-- The first `d` indices of an address, from the root's level down. -/
def trail (va d : ℕ) : List ℕ := (List.range d).map fun k => index (3 - k) va

theorem trail_succ (va d : ℕ) : trail va (d + 1) = trail va d ++ [index (3 - d) va] := by
  simp only [trail, List.range_succ, List.map_append, List.map_cons, List.map_nil]

@[simp] theorem trail_length (va d : ℕ) : (trail va d).length = d := by simp [trail]

/-- Two addresses have the same trail when they agree in the bits that are looked at. -/
theorem trail_three_iff {a b : ℕ} :
    trail a 3 = trail b 3 ↔ a / 2 ^ 21 % 2 ^ 27 = b / 2 ^ 21 % 2 ^ 27 := by
  simp only [trail, List.range_succ, List.range_zero, List.nil_append, List.map_cons, List.map_nil,
    List.cons_append, List.cons.injEq, index, and_true]
  omega

theorem trail_four_iff {a b : ℕ} :
    trail a 4 = trail b 4 ↔ a / 4096 % 2 ^ 36 = b / 4096 % 2 ^ 36 := by
  simp only [trail, List.range_succ, List.range_zero, List.nil_append, List.map_cons, List.map_nil,
    List.cons_append, List.cons.injEq, index, and_true]
  omega

/-- Below the 48 bits that are looked at, the trails tell pages and regions apart. -/
theorem trail_three_inj {a b : ℕ} (ha : a < 2 ^ 48) (hb : b < 2 ^ 48)
    (h : trail a 3 = trail b 3) : a / 2 ^ 21 = b / 2 ^ 21 := by
  have hmod := trail_three_iff.mp h
  omega

theorem trail_four_inj {a b : ℕ} (ha : a < 2 ^ 48) (hb : b < 2 ^ 48)
    (h : trail a 4 = trail b 4) : a / 4096 = b / 4096 := by
  have hmod := trail_four_iff.mp h
  omega

/-- Addresses of one page have the same trail. -/
theorem trail_page {a b : ℕ} (h : a / 4096 = b / 4096) (d : ℕ) : trail a d = trail b d := by
  refine List.map_congr_left fun k _ => ?_
  simp only [index, Nat.pow_add, ← Nat.div_div_eq_div_mul]
  rw [show (2 : ℕ) ^ 12 = 4096 from rfl, h]

/-- Addresses of one 2 MiB region have the same trail down to its table. -/
theorem trail_region {a b : ℕ} (h : a / 2 ^ 21 = b / 2 ^ 21) : trail a 3 = trail b 3 := by
  rw [trail_three_iff, h]

theorem EntryOk.zero (sh : Shape) (r : ℕ) (p : List ℕ) (i : ℕ) : EntryOk sh r p i 0 :=
  ⟨fun _ h => absurd h (by decide), fun h => absurd h (by decide), fun _ _ _ => rfl⟩

section Encoding

variable {page bits : ℕ}

/-- A page address and flag bits do not share bits. -/
theorem or_eq_add (hp : page % 4096 = 0) (hb : bits < 4096) : page ||| bits = page + bits := by
  obtain ⟨q, rfl⟩ : 4096 ∣ page := Nat.dvd_of_mod_eq_zero hp
  exact (Nat.two_pow_add_eq_or_of_lt (i := 12) hb q).symm

theorem frameOf_or (hp : page % 4096 = 0) (hb : bits < 4096) : frameOf (page ||| bits) = page := by
  rw [or_eq_add hp hb, frameOf]
  omega

theorem present_or (hp : page % 4096 = 0) (hb : bits < 4096) :
    present (page ||| bits) = present bits := by
  rw [or_eq_add hp hb, present, present, Nat.add_mod, show page % 2 = 0 by omega]
  simp

theorem huge_or (hp : page % 4096 = 0) (hb : bits < 4096) : huge (page ||| bits) = huge bits := by
  have h : (page + bits) / 128 % 2 = bits / 128 % 2 := by omega
  rw [or_eq_add hp hb, huge, huge, h]

theorem or_lt (hp : page % 4096 = 0) (hb : bits < 4096) (hlt : page < 2 ^ 64) :
    page ||| bits < 2 ^ 64 := by
  rw [or_eq_add hp hb]
  omega

theorem leaf_zero (e va : ℕ) : leaf 0 e va = frameOf e + va % 4096 := by
  have hsize : 2 ^ (12 + 9 * 0) = 4096 := rfl
  rw [leaf, frameOf, hsize]

theorem frameOf_mod (e : ℕ) : frameOf e % 4096 = 0 := Nat.mul_mod_left _ _

end Encoding

section Walk

variable {sh : Shape} {m m' : Mem} {ok : ℕ → Bool} {va : ℕ}

/-- Only 48 bits of an address are looked at. -/
theorem walk_low_bits {va' : ℕ} (h : va' % 2 ^ 48 = va % 2 ^ 48) (t : ℕ) :
    walk ok m va' 3 t = walk ok m va 3 t := by
  have h3 : index 3 va' = index 3 va := by
    simp only [index]
    omega
  have h2 : index 2 va' = index 2 va := by
    simp only [index]
    omega
  have h1 : index 1 va' = index 1 va := by
    simp only [index]
    omega
  have h0 : index 0 va' = index 0 va := by
    simp only [index]
    omega
  have hleaf (l e : ℕ) (hl : l < 3) : leaf l e va' = leaf l e va := by
    rcases l with _ | _ | _ | l
    · simp only [leaf]
      omega
    · simp only [leaf]
      omega
    · simp only [leaf]
      omega
    · omega
  simp only [walk, h3, h2, h1, h0, hleaf 0 _ (by decide), hleaf 1 _ (by decide),
    hleaf 2 _ (by decide), Nat.reduceAdd, Nat.lt_irrefl, decide_false, Bool.false_and,
    Bool.false_eq_true, if_false]

/-- A followed entry that is no leaf leads to the table of the next level. -/
theorem Linked.next (hT : Linked sh m) (hok : ∀ e, ok e → present e) {r t l : ℕ} {p : List ℕ}
    (ht : sh t = some (r, p)) (hl : p.length + (l + 1) = 3)
    (he : ok (entry m t (index (l + 1) va)))
    (hleaf : ¬ (l < 2 && huge (entry m t (index (l + 1) va))) = true) :
    sh (frameOf (entry m t (index (l + 1) va))) = some (r, p ++ [index (l + 1) va]) := by
  refine hT.child t r p ht (by omega) _ (index_lt _ va) (hok _ he) ?_
  rintro ⟨h2, hh⟩
  exact hleaf (by simp [hh]; omega)

/-- Memories that agree on a tree's entries except one translate an address alike if they do
so from that entry on, whenever the address leads there. -/
theorem Linked.walk_except (hT : Linked sh m) (hok : ∀ e, ok e → present e) {t i r lt : ℕ}
    {p : List ℕ} (ht : sh t = some (r, p)) (hlt : p.length + lt = 3)
    (hag : ∀ t' r' p', sh t' = some (r', p') → ∀ i' < 512, ¬ (t' = t ∧ i' = i) →
      entry m' t' i' = entry m t' i') {r0 : ℕ}
    (hat : r0 = r → trail va p.length = p → index lt va = i →
      walk ok m' va lt t = walk ok m va lt t) {l t0 : ℕ} {p0 : List ℕ}
    (ht0 : sh t0 = some (r0, p0)) (hl : p0.length + l = 3) (hp0 : trail va p0.length = p0) :
    walk ok m' va l t0 = walk ok m va l t0 := by
  induction l generalizing t0 p0 with
  | zero =>
    by_cases hh : t0 = t ∧ index 0 va = i
    · obtain ⟨rfl, hi⟩ := hh
      obtain ⟨rfl, rfl⟩ := Prod.mk.inj (Option.some.inj (ht0.symm.trans ht))
      obtain rfl : lt = 0 := by omega
      exact hat rfl hp0 hi
    · simp only [walk, hag t0 r0 p0 ht0 _ (index_lt 0 va) hh]
  | succ l ih =>
    by_cases hh : t0 = t ∧ index (l + 1) va = i
    · obtain ⟨rfl, hi⟩ := hh
      obtain ⟨rfl, rfl⟩ := Prod.mk.inj (Option.some.inj (ht0.symm.trans ht))
      obtain rfl : lt = l + 1 := by omega
      exact hat rfl hp0 hi
    · simp only [walk, hag t0 r0 p0 ht0 _ (index_lt _ va) hh]
      split
      · rfl
      next hoke =>
        split
        · rfl
        next hleaf =>
          refine ih (hT.next hok ht0 hl (by simpa using hoke) hleaf) (by simp; omega) ?_
          rw [List.length_append, List.length_singleton, trail_succ, hp0,
            show 3 - p0.length = l + 1 by omega]

/-- Memories that agree on all entries of a tree's tables translate alike. -/
theorem Linked.walk_congr (hT : Linked sh m) (hok : ∀ e, ok e → present e) {r l t : ℕ} {p : List ℕ}
    (hag : ∀ t p, sh t = some (r, p) → ∀ i < 512, entry m' t i = entry m t i)
    (ht : sh t = some (r, p)) (hl : p.length + l = 3) :
    walk ok m' va l t = walk ok m va l t := by
  induction l generalizing t p with
  | zero => simp only [walk, hag t p ht _ (index_lt 0 va)]
  | succ l ih =>
    simp only [walk, hag t p ht _ (index_lt (l + 1) va)]
    split
    · rfl
    next hoke =>
      split
      · rfl
      next hleaf => exact ih (hT.next hok ht hl (by simpa using hoke) hleaf) (by simp; omega)

/-- The table that the indices `p` lead to from the root `r`, through entries that grant the
access and are no leaves. -/
inductive TableAt (ok : ℕ → Bool) (m : Mem) (r : ℕ) : List ℕ → ℕ → Prop
  | root : TableAt ok m r [] r
  | next {p : List ℕ} {t i : ℕ} (h : TableAt ok m r p t) (hi : i < 512) (hp : p.length < 3)
      (he : ok (entry m t i)) (hl : p = [] ∨ huge (entry m t i) = false) :
      TableAt ok m r (p ++ [i]) (frameOf (entry m t i))

/-- A table other than the root is linked from the table above it. -/
theorem TableAt.link {r t i : ℕ} {p : List ℕ} (h : TableAt ok m r (p ++ [i]) t) :
    ∃ t0, TableAt ok m r p t0 ∧ i < 512 ∧ p.length < 3 ∧ ok (entry m t0 i) ∧
      (p = [] ∨ huge (entry m t0 i) = false) ∧ t = frameOf (entry m t0 i) := by
  generalize hq : p ++ [i] = q at h
  cases h with
  | root => simp at hq
  | next h hi hp he hl =>
    obtain ⟨rfl, hidx⟩ := List.append_inj' hq rfl
    obtain rfl := List.singleton_inj.mp hidx
    exact ⟨_, h, hi, hp, he, hl, rfl⟩

theorem TableAt.unique {r t t' : ℕ} {p : List ℕ} (h : TableAt ok m r p t)
    (h' : TableAt ok m r p t') : t = t' := by
  induction h generalizing t' with
  | root =>
    generalize hq : ([] : List ℕ) = q at h'
    cases h' with
    | root => rfl
    | next _ _ _ _ _ => simp at hq
  | next _ _ _ _ _ ih =>
    obtain ⟨t0, h0, -, -, -, -, rfl⟩ := h'.link
    rw [ih h0]

theorem TableAt.mono {ok' : ℕ → Bool} (hok : ∀ e, ok e → ok' e) {r t : ℕ} {p : List ℕ}
    (h : TableAt ok m r p t) : TableAt ok' m r p t := by
  induction h with
  | root => exact .root
  | next _ hi hp he hl ih => exact .next ih hi hp (hok _ he) hl

/-- In a tree the indices lead to the table they are recorded for. -/
theorem Linked.tableAt (hT : Linked sh m) (hok : ∀ e, ok e → present e) {r t : ℕ} {p : List ℕ}
    (hr : sh r = some (r, [])) (h : TableAt ok m r p t) : sh t = some (r, p) := by
  induction h with
  | root => exact hr
  | next _ hi hp he hl ih =>
    refine hT.child _ _ _ ih hp _ hi (hok _ he) ?_
    rintro ⟨h2, hh⟩
    rcases hl with rfl | hl
    · cases h2
    · exact absurd hh (by simp [hl])

/-- Only entries of tables above it matter for where a table is. -/
theorem TableAt.congr (hT : Linked sh m) (hok : ∀ e, ok e → present e) {r t : ℕ} {p : List ℕ}
    (hr : sh r = some (r, [])) (h : TableAt ok m r p t)
    (hag : ∀ t' q, sh t' = some (r, q) → q.length < p.length → ∀ i < 512,
      entry m' t' i = entry m t' i) : TableAt ok m' r p t := by
  induction h with
  | root => exact .root
  | @next p t i h hi hp he hl ih =>
    have hup : TableAt ok m' r p t :=
      ih fun t' q ht' hq => hag t' q ht' (by simp only [List.length_append]; omega)
    have heq := hag t p (hT.tableAt hok hr h) (by simp) i hi
    rw [← heq] at he hl ⊢
    exact .next hup hi hp he hl

/-- A walk passes through the tables its address leads to. -/
theorem TableAt.walk_eq {r t l : ℕ} {p : List ℕ} (h : TableAt ok m r p t)
    (hp : trail va p.length = p) (hl : p.length + l = 3) :
    walk ok m va 3 r = walk ok m va l t := by
  induction h generalizing l with
  | root =>
    obtain rfl : l = 3 := by simpa using hl
    rfl
  | @next p t i h hi h3 he hleaf ih =>
    rw [List.length_append, List.length_singleton] at hp hl
    rw [trail_succ] at hp
    obtain ⟨hq, hidx⟩ := List.append_inj' hp rfl
    have hidx : index (l + 1) va = i := by
      rw [show l + 1 = 3 - p.length by omega]
      exact List.singleton_inj.mp hidx
    have hn : (decide (l < 2) && huge (entry m t i)) = false := by
      rcases hleaf with rfl | hleaf
      · have h2 : ¬ l < 2 := by
          rw [List.length_nil] at hl
          omega
        rw [decide_eq_false h2, Bool.false_and]
      · rw [hleaf, Bool.and_false]
    rw [ih hq (show p.length + (l + 1) = 3 by omega), walk]
    simp only [hidx, he, hn, Bool.not_true, Bool.false_eq_true, if_false]

/-- An access that reaches its leaf passes through the tables that are present on the way. -/
theorem TableAt.walk_of_some {r t l pa : ℕ} {p : List ℕ} (h : TableAt present m r p t)
    (hp : trail va p.length = p) (hl : p.length + l = 3) (hw : walk ok m va 3 r = some pa) :
    walk ok m va l t = some pa := by
  induction h generalizing l with
  | root =>
    obtain rfl : l = 3 := by simpa using hl
    exact hw
  | @next p t i h hi h3 he hleaf ih =>
    rw [List.length_append, List.length_singleton] at hp hl
    rw [trail_succ] at hp
    obtain ⟨hq, hidx⟩ := List.append_inj' hp rfl
    have hidx : index (l + 1) va = i := by
      rw [show l + 1 = 3 - p.length by omega]
      exact List.singleton_inj.mp hidx
    have hup := ih hq (show p.length + (l + 1) = 3 by omega)
    simp only [walk, hidx] at hup
    split at hup
    · cases hup
    split at hup
    next hh =>
      rw [Bool.and_eq_true, decide_eq_true_eq] at hh
      rcases hleaf with rfl | hleaf
      · rw [List.length_nil] at hl
        omega
      · rw [hleaf] at hh
        exact absurd hh.2 (by decide)
    · exact hup

/-- An access that reaches its leaf is granted by every table on the way. -/
theorem TableAt.grant {r t pa : ℕ} {p : List ℕ} (h : TableAt present m r p t)
    (hp : trail va p.length = p) (hw : walk ok m va 3 r = some pa) : TableAt ok m r p t := by
  induction h with
  | root => exact .root
  | @next p t i h hi h3 he hleaf ih =>
    rw [List.length_append, List.length_singleton, trail_succ] at hp
    obtain ⟨hq, hidx⟩ := List.append_inj' hp rfl
    obtain ⟨l, hl⟩ : ∃ l, 3 - p.length = l + 1 := ⟨2 - p.length, by omega⟩
    have hidx : index (l + 1) va = i := by
      rw [← hl]
      exact List.singleton_inj.mp hidx
    have hup := h.walk_of_some hq (by omega : p.length + (l + 1) = 3) hw
    have hok : ok (entry m t i) = true := by
      by_contra hn
      simp [walk, hidx, hn] at hup
    exact .next (ih hq) hi h3 hok hleaf

/-- What a last-level entry and the tables above it grant. -/
theorem TableAt.walk_last {r t pa : ℕ} (h : TableAt present m r (trail va 3) t) :
    walk ok m va 3 r = some pa ↔ TableAt ok m r (trail va 3) t ∧
      ok (entry m t (index 0 va)) ∧ pa = leaf 0 (entry m t (index 0 va)) va := by
  have hlen := trail_length va 3
  have hway : trail va (trail va 3).length = trail va 3 := by rw [hlen]
  constructor
  · intro hw
    have hl := h.walk_of_some hway (l := 0) (by rw [hlen]) hw
    simp only [walk] at hl
    split at hl
    next hok => exact ⟨h.grant hway hw, hok, (Option.some.inj hl).symm⟩
    · cases hl
  · rintro ⟨hat, hok, rfl⟩
    rw [hat.walk_eq hway (l := 0) (by rw [hlen]), walk]
    simp only [hok, if_true]

/-- A walk that meets an absent entry ends there. -/
theorem walk_absent (hok : ∀ e, ok e → present e) {l t : ℕ}
    (hp : present (entry m t (index l va)) = false) : walk ok m va l t = none := by
  have hno : ok (entry m t (index l va)) = false := by
    by_contra hn
    rw [hok _ (by simpa using hn)] at hp
    cases hp
  cases l with
  | zero => simp [walk, hno]
  | succ l => simp [walk, hno]

theorem TableAt.walk_absent (hok : ∀ e, ok e → present e) {r t l : ℕ} {p : List ℕ}
    (h : TableAt present m r p t) (hp : trail va p.length = p) (hl : p.length + l = 3)
    (habs : present (entry m t (index l va)) = false) : walk ok m va 3 r = none := by
  by_contra hsome
  obtain ⟨pa, hw⟩ := Option.ne_none_iff_exists'.mp hsome
  have hl := h.walk_of_some hp hl hw
  rw [PageTable.walk_absent hok habs] at hl
  cases hl

/-- The entries that lead to a translation are present. -/
theorem TableAt.present_of_walk {r t l pa : ℕ} {p : List ℕ} (h : TableAt present m r p t)
    (hp : trail va p.length = p) (hl : p.length + l = 3) (hw : walk present m va 3 r = some pa) :
    present (entry m t (index l va)) := by
  by_contra habs
  rw [h.walk_absent access_present.present hp hl (Bool.eq_false_iff.mpr habs)] at hw
  cases hw

/-- Without 1 GiB pages, a translation passes through a third-level table. -/
theorem Linked.exists_third (hT : Linked sh m) {r pa : ℕ} (hr : sh r = some (r, []))
    (hw : walk present m va 3 r = some pa) :
    ∃ t, TableAt present m r (trail va 2) t ∧ present (entry m t (index 1 va)) := by
  have hat1 := TableAt.root.next (index_lt 3 va) (by simp)
    (TableAt.root.present_of_walk rfl (l := 3) rfl hw) (.inl rfl)
  have hp1 := hat1.present_of_walk rfl (l := 2) rfl hw
  have hst1 := hT.tableAt access_present.present hr hat1
  have hat2 := hat1.next (index_lt 2 va) (by simp) hp1
    (.inr (hT.flat _ _ _ hst1 rfl _ (index_lt 2 va) hp1))
  exact ⟨_, hat2, hat2.present_of_walk rfl (l := 1) rfl hw⟩

/-- Only the entries on the way to it matter for where a table is. -/
theorem TableAt.congr_trail (hT : Linked sh m) (hok : ∀ e, ok e → present e) {r t d : ℕ}
    (hr : sh r = some (r, [])) (h : TableAt ok m r (trail va d) t)
    (hag : ∀ t' j, j < d → sh t' = some (r, trail va j) →
      entry m' t' (index (3 - j) va) = entry m t' (index (3 - j) va)) :
    TableAt ok m' r (trail va d) t := by
  induction d generalizing t with
  | zero =>
    have hroot : t = r := h.unique .root
    rw [hroot]
    exact .root
  | succ d ih =>
    rw [trail_succ] at h ⊢
    obtain ⟨t0, h0, hi, hp, he, hl, rfl⟩ := h.link
    have hsame := hag t0 d (Nat.lt_succ_self d) (hT.tableAt hok hr h0)
    rw [← hsame] at he hl ⊢
    exact .next (ih h0 fun t' j hj => hag t' j (Nat.lt_succ_of_lt hj)) hi hp he hl

/-- The entry that the translation of an address ends with, and its level: a 4 KiB leaf, or a 2 MiB
leaf of the third-level table. -/
inductive LeafAt (m : Mem) (r va : ℕ) : ℕ → ℕ → Prop
  | page {t : ℕ} (h : TableAt present m r (trail va 3) t)
      (hp : present (entry m t (index 0 va))) : LeafAt m r va 0 (entry m t (index 0 va))
  | large {t : ℕ} (h : TableAt present m r (trail va 2) t)
      (hp : present (entry m t (index 1 va))) (hh : huge (entry m t (index 1 va))) :
      LeafAt m r va 1 (entry m t (index 1 va))

theorem LeafAt.walk_eq {r l e : ℕ} (h : LeafAt m r va l e) :
    walk present m va 3 r = some (leaf l e va) := by
  cases h with
  | page h hp =>
    rw [h.walk_eq (l := 0) rfl rfl]
    simp only [walk, hp, if_true]
  | large h hp hh =>
    rw [h.walk_eq (l := 1) rfl rfl]
    simp only [walk, hp, hh, Bool.not_true, Bool.false_eq_true, if_false, Nat.zero_lt_two,
      decide_true, Bool.and_true, if_true]

theorem LeafAt.present {r l e : ℕ} (h : LeafAt m r va l e) : present e := by
  cases h with
  | page _ hp => exact hp
  | large _ hp _ => exact hp

/-- An access that is granted is granted by the leaf. -/
theorem LeafAt.grants {r l e pa : ℕ} (h : LeafAt m r va l e) (hw : walk ok m va 3 r = some pa) :
    ok e := by
  cases h with
  | page h hp => exact (h.walk_last.mp hw).2.1
  | large h hp hh =>
    have hl := h.walk_of_some rfl (l := 1) rfl hw
    by_contra hno
    rw [walk, Bool.eq_false_iff.mpr hno] at hl
    cases hl

/-- Addresses of one page have the same leaf. -/
theorem LeafAt.of_page {r v l e : ℕ} (h : LeafAt m r v l e) (hp : va / 4096 = v / 4096) :
    LeafAt m r va l e := by
  have htr (d : ℕ) : trail va d = trail v d := trail_page hp d
  have h0 : index 0 va = index 0 v := by
    simp only [index]
    omega
  have h1 : index 1 va = index 1 v := by
    simp only [index]
    omega
  cases h with
  | page h hp =>
    rw [← h0] at hp ⊢
    exact .page (htr 3 ▸ h) hp
  | large h hp hh =>
    rw [← h1] at hp hh ⊢
    exact .large (htr 2 ▸ h) hp hh

theorem LeafAt.leaf_page {r v l e : ℕ} (h : LeafAt m r v l e) (hv : v % 4096 = 0)
    (hp : va / 4096 = v / 4096) : leaf l e va = leaf l e v + va % 4096 := by
  cases h <;> simp only [leaf] <;> omega

theorem LeafAt.congr (hT : Linked sh m) {r l e : ℕ} (hr : sh r = some (r, []))
    (h : LeafAt m r va l e) (hag : ∀ t j, j ≤ 3 → sh t = some (r, trail va j) →
      entry m' t (index (3 - j) va) = entry m t (index (3 - j) va)) : LeafAt m' r va l e := by
  have hup {t d : ℕ} (hd : d ≤ 3) (hat : TableAt PageTable.present m r (trail va d) t) :=
    hat.congr_trail hT access_present.present hr fun t' j hj => hag t' j (by omega)
  cases h with
  | page h hp =>
    have hsame := hag _ 3 le_rfl (hT.tableAt access_present.present hr h)
    rw [Nat.sub_self] at hsame
    rw [← hsame] at hp ⊢
    exact .page (hup le_rfl h) hp
  | large h hp hh =>
    have hsame := hag _ 2 (by decide) (hT.tableAt access_present.present hr h)
    have hsame : entry m' _ (index 1 va) = entry m _ (index 1 va) := hsame
    rw [← hsame] at hp hh ⊢
    exact .large (hup (by decide) h) hp hh

/-- Every entry of a table page is as before or absent. -/
def Withdrawn (m m' : Mem) : Prop :=
  ∀ t i, t % 4096 = 0 → i < 512 → entry m' t i = entry m t i ∨ present (entry m' t i) = false

theorem Withdrawn.refl (m : Mem) : Withdrawn m m := fun _ _ _ _ => .inl rfl

theorem Withdrawn.trans {m'' : Mem} (h : Withdrawn m m') (h' : Withdrawn m' m'') :
    Withdrawn m m'' := by
  intro t i ht hi
  rcases h' t i ht hi with he | habs
  · rw [he]
    exact h t i ht hi
  · exact .inr habs

/-- What is translated after a withdrawal is translated as before, for every access. -/
theorem Withdrawn.walk_eq (h : Withdrawn m m') {l t pa : ℕ} (ht : t % 4096 = 0)
    (hw : walk present m' va l t = some pa) (ok : ℕ → Bool) :
    walk ok m' va l t = walk ok m va l t := by
  have hkept {l t : ℕ} (ht : t % 4096 = 0) (hw : walk present m' va l t = some pa) :
      entry m' t (index l va) = entry m t (index l va) := by
    rcases h t _ ht (index_lt l va) with he | habs
    · exact he
    · rw [PageTable.walk_absent (fun _ hp => hp) habs] at hw
      cases hw
  induction l generalizing t with
  | zero => simp only [walk, hkept ht hw]
  | succ l ih =>
    have he := hkept ht hw
    simp only [walk] at hw ⊢
    rw [← he]
    split
    · rfl
    · split
      · rfl
      next hleaf =>
        split at hw
        · cases hw
        · exact ih (Nat.mul_mod_left _ _) hw

theorem Withdrawn.walk_none (h : Withdrawn m m') {l t : ℕ} (ht : t % 4096 = 0)
    (hw : walk present m va l t = none) : walk present m' va l t = none := by
  by_contra hsome
  obtain ⟨pa, hpa⟩ := Option.ne_none_iff_exists'.mp hsome
  rw [h.walk_eq ht hpa present, hw] at hpa
  cases hpa

/-- No table is reached that was not reached before. -/
theorem Withdrawn.tableAt_of (h : Withdrawn m m') {r t : ℕ} {p : List ℕ} (hr : r % 4096 = 0)
    (hat : TableAt present m' r p t) : TableAt present m r p t := by
  induction hat with
  | root => exact .root
  | @next p t i hat hi h3 he hleaf ih =>
    have ht : t % 4096 = 0 := by
      cases hat with
      | root => exact hr
      | next _ _ _ _ _ => exact Nat.mul_mod_left _ _
    rcases h t i ht hi with hs | habs
    · rw [hs] at he hleaf ⊢
      exact .next ih hi h3 he hleaf
    · rw [habs] at he
      cases he

/-- An address that is translated after a withdrawal has the tables on its way as before. -/
theorem Withdrawn.tableAt (h : Withdrawn m m') {r t pa : ℕ} {p : List ℕ} (hr : r % 4096 = 0)
    (hw : walk present m' va 3 r = some pa) (hat : TableAt present m r p t)
    (hp : trail va p.length = p) : TableAt present m' r p t := by
  induction hat with
  | root => exact .root
  | @next p t i hat hi h3 he hleaf ih =>
    rw [List.length_append, List.length_singleton, trail_succ] at hp
    obtain ⟨hq, hidx⟩ := List.append_inj' hp rfl
    have hidx : index (3 - p.length) va = i := List.singleton_inj.mp hidx
    have hup := ih hq
    have ht : t % 4096 = 0 := by
      cases hat with
      | root => exact hr
      | next _ _ _ _ _ => exact Nat.mul_mod_left _ _
    have hsame : entry m' t i = entry m t i := by
      rcases h t i ht hi with hs | habs
      · exact hs
      · have hnone := hup.walk_absent access_present.present hq
          (l := 3 - p.length) (by omega) (by rwa [hidx])
        rw [hnone] at hw
        cases hw
    rw [← hsame] at he hleaf ⊢
    exact .next hup hi h3 he hleaf

/-- A table without present entries translates nothing. -/
theorem walk_empty (hok : ∀ e, ok e → present e) {t : ℕ} (hz : ∀ i < 512, entry m t i = 0)
    (l : ℕ) : walk ok m va l t = none := by
  have h0 : ok 0 = false := by
    by_contra h
    exact absurd (hok 0 (by simpa using h)) (by decide)
  cases l with
  | zero => simp [walk, hz _ (index_lt 0 va), h0]
  | succ l => simp [walk, hz _ (index_lt (l + 1) va), h0]

/-- Both memories translate an address from a root of the tree alike, except where the
translation was `changed`. -/
def WalksAgree (sh : Shape) (changed : ℕ → ℕ → Prop) (m m' : Mem) : Prop :=
  ∀ ok, Access ok → ∀ r, sh r = some (r, []) → ∀ va, ¬ changed r va →
    walk ok m' va 3 r = walk ok m va 3 r

theorem WalksAgree.trans {sh' : Shape} {changed : ℕ → ℕ → Prop} {m'' : Mem}
    (h : WalksAgree sh changed m m') (h' : WalksAgree sh' changed m' m'')
    (hsub : ∀ r, sh r = some (r, []) → sh' r = some (r, [])) : WalksAgree sh changed m m'' :=
  fun ok ha r hr va hn => (h' ok ha r (hsub r hr) va hn).trans (h ok ha r hr va hn)

theorem WalksAgree.mono {changed changed' : ℕ → ℕ → Prop} (h : WalksAgree sh changed m m')
    (hc : ∀ r va, changed r va → changed' r va) : WalksAgree sh changed' m m' :=
  fun ok ha r hr va hn => h ok ha r hr va fun hv => hn (hc r va hv)

section OneEntry

variable {t i r : ℕ} {p : List ℕ} {changed : ℕ → ℕ → Prop}

/-- A new entry changes the addresses that lead to it and no others. -/
theorem Linked.walks_set (hT : Linked sh m) (ht : sh t = some (r, p)) (hp : p.length ≤ 3)
    (hag : ∀ t' r' p', sh t' = some (r', p') → ∀ i' < 512, ¬ (t' = t ∧ i' = i) →
      entry m' t' i' = entry m t' i') :
    WalksAgree sh (fun r' va => r' = r ∧ trail va (p.length + 1) = p ++ [i]) m m' := by
  intro ok ha r0 hr0 va hn
  refine hT.walk_except ha.present ht (Nat.add_sub_of_le hp) hag ?_ hr0 rfl rfl
  intro h0 htr hidx
  refine absurd ⟨h0, ?_⟩ hn
  rw [trail_succ, htr, hidx]

/-- Linking an empty table where there was none changes no translation. -/
theorem Linked.walks_link (hT : Linked sh m) (ht : sh t = some (r, p)) (hp : p.length < 3)
    (hag : ∀ t' r' p', sh t' = some (r', p') → ∀ i' < 512, ¬ (t' = t ∧ i' = i) →
      entry m' t' i' = entry m t' i')
    (habs : present (entry m t i) = false) (hh : huge (entry m' t i) = false)
    (hz : ∀ k < 512, entry m' (frameOf (entry m' t i)) k = 0) : WalksAgree sh changed m m' := by
  intro ok ha r0 hr0 va _
  obtain ⟨l, hl⟩ : ∃ l, p.length + (l + 1) = 3 := ⟨2 - p.length, by omega⟩
  refine hT.walk_except ha.present ht hl hag ?_ hr0 rfl rfl
  intro _ _ hidx
  have hno : ok (entry m t i) = false := by
    by_contra h
    rw [ha.present _ (by simpa using h)] at habs
    cases habs
  simp only [walk, hidx, hno, hh, walk_empty ha.present hz, Bool.and_false, Bool.false_eq_true,
    if_false, Bool.not_false, if_true, ite_self]

private theorem part_bits (e k : ℕ) :
    (e / 2 ^ 21 * 2 ^ 21 + k * 4096 + e % 512) % 8 = e % 8 := by omega

private theorem part_leaf (e va : ℕ) :
    leaf 0 (e / 2 ^ 21 * 2 ^ 21 + index 0 va * 4096 + e % 512) va = leaf 1 e va := by
  simp only [leaf, index, Nat.mul_zero, Nat.add_zero, Nat.mul_one, Nat.reduceAdd]
  omega

/-- Replacing a 2 MiB leaf by a table of its 4 KiB parts changes no translation. -/
theorem Linked.walks_split (hT : Linked sh m) (ht : sh t = some (r, p)) (hp : p.length = 2)
    (hag : ∀ t' r' p', sh t' = some (r', p') → ∀ i' < 512, ¬ (t' = t ∧ i' = i) →
      entry m' t' i' = entry m t' i')
    (hold : huge (entry m t i)) (hnew : entry m' t i % 8 = 7) (hh : huge (entry m' t i) = false)
    (hparts : ∀ k < 512, entry m' (frameOf (entry m' t i)) k =
      entry m t i / 2 ^ 21 * 2 ^ 21 + k * 4096 + entry m t i % 512) :
    WalksAgree sh changed m m' := by
  intro ok ha r0 hr0 va _
  refine hT.walk_except ha.present ht (by omega : p.length + 1 = 3) hag ?_ hr0 rfl rfl
  intro _ _ hidx
  have hlink : ok (entry m' t i) = true := by
    rw [ha.bits, hnew]
    exact ha.full
  have hk := index_lt 0 va
  have hpart := hparts _ hk
  have hbits : ok (entry m' (frameOf (entry m' t i)) (index 0 va)) = ok (entry m t i) := by
    rw [ha.bits, ha.bits (entry m t i), hpart, part_bits]
  have hleaf : leaf 0 (entry m' (frameOf (entry m' t i)) (index 0 va)) va =
      leaf 1 (entry m t i) va := by rw [hpart, part_leaf]
  simp only [walk, hidx, hlink, hh, hold, hbits, hleaf, Bool.not_true, Bool.and_false,
    Bool.false_eq_true, if_false, Bool.and_true, Nat.zero_lt_two, decide_true, if_true]
  cases ok (entry m t i) <;> rfl

end OneEntry

end Walk

section Build

variable {sh : Shape} {m m' : Mem}

/-- A tree only depends on the entries of its tables above the last level. -/
theorem Tree.congr (hT : Tree sh m)
    (hag : ∀ t r p, sh t = some (r, p) → p.length < 3 → ∀ i < 512, entry m' t i = entry m t i) :
    Tree sh m' := by
  refine ⟨hT.aligned, hT.root, fun t r p ht hp i hi => ?_⟩
  rw [hag t r p ht hp i hi]
  exact hT.entries t r p ht hp i hi

/-- Forgetting tables that no remaining table leads to. -/
theorem Tree.restrict (hT : Tree sh m) {sh' : Shape}
    (hsub : ∀ t x, sh' t = some x → sh t = some x)
    (hclosed : ∀ t r p, sh' t = some (r, p) → p.length < 3 → ∀ i < 512, present (entry m t i) →
      ¬ (p.length = 2 ∧ huge (entry m t i)) → sh' (frameOf (entry m t i)) = some (r, p ++ [i])) :
    Tree sh' m := by
  refine ⟨fun t r p ht => hT.aligned t r p (hsub t _ ht), fun t r ht => hT.root t r (hsub t _ ht),
    fun t r p ht hp i hi => ?_⟩
  have hE := hT.entries t r p (hsub t _ ht) hp i hi
  exact ⟨hE.flat, hclosed t r p ht hp i hi, hE.vacant⟩

theorem entry_store_ne {t t' i i' e : ℕ} (ht : t % 4096 = 0) (ht' : t' % 4096 = 0) (hi : i < 512)
    (hi' : i' < 512) (hne : ¬ (t' = t ∧ i' = i)) :
    entry (store64 m (t + 8 * i) e) t' i' = entry m t' i' :=
  load_store_outside (entry_disjoint ht ht' hi hi' hne)

theorem entry_store_self {t i e : ℕ} (he : e < 2 ^ 64) :
    entry (store64 m (t + 8 * i) e) t i = e := by rw [entry, load64_store64 he]

/-- Writing the entries of one of a tree's tables. -/
theorem Tree.setTable (hT : Tree sh m) {t r : ℕ} {p : List ℕ} (ht : sh t = some (r, p))
    (hag : ∀ t' r' p', sh t' = some (r', p') → t' ≠ t → ∀ i < 512, entry m' t' i = entry m t' i)
    (hok : p.length < 3 → ∀ i < 512, EntryOk sh r p i (entry m' t i)) : Tree sh m' := by
  refine ⟨hT.aligned, hT.root, fun t' r' p' ht' hp' i hi => ?_⟩
  by_cases hh : t' = t
  · subst hh
    obtain ⟨rfl, rfl⟩ := Prod.mk.inj (Option.some.inj (ht.symm.trans ht'))
    exact hok hp' i hi
  · rw [hag t' r' p' ht' hh i hi]
    exact hT.entries t' r' p' ht' hp' i hi

/-- A page without entries becomes a table of the tree. -/
theorem Tree.extend (hT : Tree sh m) {f r : ℕ} {p : List ℕ} (hf : sh f = none)
    (hal : f % 4096 = 0 ∧ 0 < f ∧ f < 2 ^ 64) (hroot : p = [] → f = r)
    (hz : ∀ i < 512, entry m f i = 0) : Tree (Function.update sh f (some (r, p))) m := by
  have hup (t : ℕ) : Function.update sh f (some (r, p)) t = if t = f then some (r, p) else sh t :=
    Function.update_apply ..
  have hold {t r' : ℕ} {p' : List ℕ} (h : sh t = some (r', p')) :
      Function.update sh f (some (r, p)) t = some (r', p') := by
    rw [hup, if_neg, h]
    rintro rfl
    rw [hf] at h
    cases h
  refine ⟨fun t r' p' ht => ?_, fun t r' ht => ?_, fun t r' p' ht hp' i hi => ?_⟩
  · rw [hup] at ht
    split at ht
    next he => exact he ▸ hal
    · exact hT.aligned t r' p' ht
  · rw [hup] at ht
    split at ht
    next he =>
      obtain ⟨rfl, rfl⟩ := Prod.mk.inj (Option.some.inj ht)
      exact he.trans (hroot rfl)
    · exact hT.root t r' ht
  · rw [hup] at ht
    split at ht
    next he =>
      rw [he, hz i hi]
      exact .zero _ _ _ _
    · have hE := hT.entries t r' p' ht hp' i hi
      exact ⟨hE.flat, fun h1 h2 => hold (hE.child h1 h2), hE.vacant⟩

end Build

end PageTable
