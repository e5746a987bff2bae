import Mathlib.Data.List.Basic
import Mathlib.Data.List.Nodup
import Mathlib.Logic.Relation

/-! Stacks threaded through their own cells. `next` gives the cell below a cell and `nil`
ends the chain; nothing is assumed about what cells or links are. -/
namespace LinkedStack

variable {α : Type*}

/-- Following `next` from `top` visits exactly the cells of the list and ends at `nil`. -/
def Chain (next : α → α) (nil : α) : α → List α → Prop
  | top, [] => top = nil
  | top, a :: l => top = a ∧ a ≠ nil ∧ Chain next nil (next a) l

variable {next next' : α → α} {nil top a : α} {l l' : List α}

theorem chain_nil_iff : Chain next nil nil l ↔ l = [] := by
  cases l with
  | nil => simp [Chain]
  | cons a l =>
    simp only [Chain, reduceCtorEq, iff_false]
    rintro ⟨rfl, hn, -⟩
    exact hn rfl

/-- A non-empty chain starts at its top. -/
theorem Chain.exists_cons (h : Chain next nil top l) (hn : top ≠ nil) :
    ∃ l', l = top :: l' ∧ Chain next nil (next top) l' := by
  cases l with
  | nil => exact absurd h hn
  | cons a l =>
    obtain ⟨rfl, -, hl⟩ := h
    exact ⟨l, rfl, hl⟩

theorem Chain.unique (h : Chain next nil top l) (h' : Chain next nil top l') : l = l' := by
  induction l generalizing top l' with
  | nil =>
    subst h
    exact (chain_nil_iff.mp h').symm
  | cons a l ih =>
    obtain ⟨rfl, hn, hl⟩ := h
    obtain ⟨m, rfl, hm⟩ := h'.exists_cons hn
    rw [ih hl hm]

/-- A chain only depends on the links of its own cells. -/
theorem Chain.congr (h : Chain next nil top l) (hl : ∀ a ∈ l, next' a = next a) :
    Chain next' nil top l := by
  induction l generalizing top with
  | nil => exact h
  | cons a l ih =>
    obtain ⟨rfl, hn, ht⟩ := h
    refine ⟨rfl, hn, ?_⟩
    rw [hl top (by simp)]
    exact ih ht fun b hb => hl b (by simp [hb])

/-- Pushing a cell that is not on the stack and links to the old top. -/
theorem Chain.push (h : Chain next nil top l) (hn : a ≠ nil) (ha : next' a = top)
    (hl : ∀ b ∈ l, next' b = next b) : Chain next' nil a (a :: l) :=
  ⟨rfl, hn, ha ▸ h.congr hl⟩

/-- A new cell behind the last one. -/
theorem Chain.snoc {b : α} (h : Chain next nil top (l ++ [a])) (hb : b ≠ nil)
    (hl : ∀ c ∈ l, next' c = next c) (ha : next' a = b) (hend : next' b = nil) :
    Chain next' nil top (l ++ [a] ++ [b]) := by
  induction l generalizing top with
  | nil =>
    obtain ⟨rfl, hn, -⟩ := h
    exact ⟨rfl, hn, ha, hb, hend⟩
  | cons c l ih =>
    obtain ⟨rfl, hn, ht⟩ := h
    refine ⟨rfl, hn, ?_⟩
    rw [hl top (by simp)]
    exact ih ht fun c hc => hl c (by simp [hc])

theorem Chain.ne_nil (h : Chain next nil top l) : ∀ a ∈ l, a ≠ nil := by
  induction l generalizing top with
  | nil => simp
  | cons b l ih =>
    obtain ⟨-, hn, ht⟩ := h
    intro a ha
    rcases List.mem_cons.mp ha with rfl | ha
    · exact hn
    · exact ih ht a ha

/-- From each of its cells on, a chain is a chain. -/
theorem Chain.suffix (h : Chain next nil top l) (ha : a ∈ l) :
    ∃ l', Chain next nil a (a :: l') ∧ a :: l' <:+ l := by
  induction l generalizing top with
  | nil => cases ha
  | cons b l ih =>
    obtain ⟨rfl, hn, ht⟩ := h
    rcases List.mem_cons.mp ha with rfl | ha
    · exact ⟨l, ⟨rfl, hn, ht⟩, List.suffix_refl _⟩
    · obtain ⟨l', hl', hs⟩ := ih ht ha
      exact ⟨l', hl', hs.trans (List.suffix_cons _ _)⟩

/-- A chain that ends meets no cell twice. -/
theorem Chain.nodup (h : Chain next nil top l) : l.Nodup := by
  induction l generalizing top with
  | nil => exact List.nodup_nil
  | cons a l ih =>
    have ht := h.2.2
    refine List.nodup_cons.mpr ⟨fun ha => ?_, ih ht⟩
    obtain ⟨l', hl', hs⟩ := ht.suffix ha
    have htop := h.1
    have heq := hl'.unique (htop ▸ h)
    have hle := hs.length_le
    rw [heq, List.length_cons] at hle
    omega

/-- The cell is met when the links are followed from `top`, which need not end. -/
def Met (next : α → α) (nil top a : α) : Prop :=
  a ≠ nil ∧ Relation.ReflTransGen (fun b c => b ≠ nil ∧ next b = c) top a

theorem met_top (hn : top ≠ nil) : Met next nil top top := ⟨hn, .refl⟩

/-- Where a chain ends, the cells that are met are its own. -/
theorem Chain.met_iff (h : Chain next nil top l) : Met next nil top a ↔ a ∈ l := by
  induction l generalizing top with
  | nil =>
    obtain rfl : top = nil := h
    simp only [Met, List.not_mem_nil, iff_false, not_and]
    intro hn hr
    rcases hr.cases_head with rfl | ⟨b, ⟨htop, -⟩, -⟩
    · exact hn rfl
    · exact htop rfl
  | cons b l ih =>
    obtain ⟨rfl, hn, ht⟩ := h
    rw [List.mem_cons, ← ih ht, Met, Met, Relation.ReflTransGen.cases_head_iff]
    constructor
    · rintro ⟨ha, rfl | ⟨b, ⟨-, rfl⟩, hr⟩⟩
      · exact .inl rfl
      · exact .inr ⟨ha, hr⟩
    · rintro (rfl | ⟨ha, hr⟩)
      · exact ⟨hn, .inl rfl⟩
      · exact ⟨ha, .inr ⟨_, ⟨hn, rfl⟩, hr⟩⟩

/-- A cell that links to itself is the top of no finite chain. -/
theorem not_chain_of_selfLink (hn : top ≠ nil) (hs : next top = top) :
    ¬ Chain next nil top l := by
  induction l with
  | nil => exact hn
  | cons a l ih =>
    rintro ⟨rfl, -, ht⟩
    exact ih (hs ▸ ht)

end LinkedStack
