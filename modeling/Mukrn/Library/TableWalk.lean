import Mathlib.Data.Finset.Card
import Mathlib.Logic.Function.Iterate

/-! Walks along the links of a table. `live` says which values are cells, and a walk ends at any
other value. Nothing is assumed about the links: chains may merge and run in cycles. -/
namespace TableWalk

variable {α β : Type*}

section Visits

/-- The cells that a walk from `s` visits. -/
inductive Visits (live : α → Prop) (next : α → α) (s : α) : α → Prop
  | start (h : live s) : Visits live next s s
  | step {a : α} (h : Visits live next s a) (hn : live (next a)) : Visits live next s (next a)

variable {live : α → Prop} {next next' : α → α} {s a : α}

theorem Visits.live_start (h : Visits live next s a) : live s := by
  induction h with
  | start h => exact h
  | step _ _ ih => exact ih

/-- A walk visits its first cell and what a walk behind it visits, also when the link of the first
cell is cut. -/
theorem visits_iff_cut (next' : α → α) (hs : live s) (hkeep : ∀ b, b ≠ s → next' b = next b)
    (hcut : ¬ live (next' s)) :
    Visits live next s a ↔ a = s ∨ Visits live next' (next s) a := by
  constructor
  · intro h
    induction h with
    | start => exact .inl rfl
    | @step b h hlive ih =>
      by_cases hb : b = s
      · subst hb
        exact .inr (.start hlive)
      · rw [← hkeep b hb] at hlive ⊢
        exact .inr (.step (ih.resolve_left hb) hlive)
  · rintro (rfl | h)
    · exact .start hs
    · induction h with
      | start h => exact .step (.start hs) h
      | @step b h hlive ih =>
        have hb : b ≠ s := by
          rintro rfl
          exact hcut hlive
        rw [hkeep b hb] at hlive ⊢
        exact .step ih hlive

end Visits

section Wipe

variable (live : α → Prop) [DecidablePred live] [DecidableEq α] (link : β → α) (wipe : β → β)

/-- Every cell on the way is wiped after its link has been read. At most `n` steps, nothing when the
walk goes on. -/
def wipeWalk : ℕ → (α → β) → α → Option (α → β)
  | 0, _, _ => none
  | n + 1, t, s =>
    if live s then wipeWalk n (Function.update t s (wipe (t s))) (link (t s)) else some t

variable {live link wipe} {T : Finset α} {s : α}

/-- The cells that link to a cell get fewer with each step, until a link leads nowhere. -/
private theorem wipeWalk_eq (hT : ∀ a, live a → a ∈ T) (hwipe : ∀ b, ¬ live (link (wipe b)))
    (hidem : ∀ b, wipe (wipe b) = wipe b) {n : ℕ} {t : α → β}
    (hn : (T.filter fun a => live (link (t a))).card + (if live s then 2 else 1) ≤ n) :
    ∃ t', wipeWalk live link wipe n t s = some t' ∧ ∀ a,
      (Visits live (fun b => link (t b)) s a → t' a = wipe (t a)) ∧
      (¬ Visits live (fun b => link (t b)) s a → t' a = t a) := by
  induction n generalizing t s with
  | zero => split at hn <;> omega
  | succ n ih =>
    by_cases hs : live s
    · obtain ⟨t₁, ht₁⟩ : ∃ t₁, t₁ = Function.update t s (wipe (t s)) := ⟨_, rfl⟩
      have hself : t₁ s = wipe (t s) := by rw [ht₁, Function.update_self]
      have hother (b : α) (hb : b ≠ s) : t₁ b = t b := by rw [ht₁, Function.update_of_ne hb]
      have hsub : T.filter (fun a => live (link (t₁ a))) ⊆ T.filter fun a => live (link (t a)) := by
        intro b hb
        obtain ⟨hbT, hlive⟩ := Finset.mem_filter.mp hb
        have hne : b ≠ s := by
          rintro rfl
          rw [hself] at hlive
          exact hwipe _ hlive
        rw [hother b hne] at hlive
        exact Finset.mem_filter.mpr ⟨hbT, hlive⟩
      have hle := Finset.card_le_card hsub
      rw [if_pos hs] at hn
      have hn₁ : (T.filter fun a => live (link (t₁ a))).card +
          (if live (link (t s)) then 2 else 1) ≤ n := by
        split
        next hlive =>
          have hlt := Finset.card_lt_card (Finset.ssubset_iff_of_subset hsub |>.mpr
            ⟨s, Finset.mem_filter.mpr ⟨hT s hs, hlive⟩, fun hm =>
              hwipe _ (hself ▸ (Finset.mem_filter.mp hm).2)⟩)
          omega
        · omega
      obtain ⟨t', hwalk, hspec⟩ := ih hn₁
      refine ⟨t', ?_, fun a => ?_⟩
      · rw [wipeWalk, if_pos hs, ← ht₁]
        exact hwalk
      · rw [visits_iff_cut (fun b => link (t₁ b)) hs
          (fun b hb => congrArg link (hother b hb)) (by rw [hself]; exact hwipe _)]
        by_cases ha : a = s
        · subst ha
          refine ⟨fun _ => ?_, fun hnot => absurd (.inl rfl) hnot⟩
          by_cases hvis : Visits live (fun b => link (t₁ b)) (link (t a)) a
          · rw [(hspec a).1 hvis, hself, hidem]
          · rw [(hspec a).2 hvis, hself]
        · rw [← hother a ha]
          exact ⟨fun h => (hspec a).1 (h.resolve_left ha),
            fun h => (hspec a).2 fun hv => h (.inr hv)⟩
    · refine ⟨t, ?_, fun a => ⟨fun h => absurd h.live_start hs, fun _ => rfl⟩⟩
      rw [wipeWalk, if_neg hs]

/-- The walk ends on every table, and the cells wiped are those it visits in the table it starts
from. -/
theorem wipeWalk_spec (hT : ∀ a, live a → a ∈ T) (hwipe : ∀ b, ¬ live (link (wipe b)))
    (hidem : ∀ b, wipe (wipe b) = wipe b) {n : ℕ} (hn : T.card + 2 ≤ n) (t : α → β) (s : α) :
    ∃ t', wipeWalk live link wipe n t s = some t' ∧ ∀ a,
      (Visits live (fun b => link (t b)) s a → t' a = wipe (t a)) ∧
      (¬ Visits live (fun b => link (t b)) s a → t' a = t a) := by
  apply wipeWalk_eq hT hwipe hidem
  have hle := Finset.card_filter_le T fun a => live (link (t a))
  split <;> omega

end Wipe

section Loops

/-- The walk from `s` comes back to a cell and has met nothing else before. -/
def Loops (live : α → Prop) (next : α → α) (s : α) : Prop :=
  ∃ i j, i < j ∧ next^[i] s = next^[j] s ∧ ∀ k < j, live (next^[k] s)

variable {live : α → Prop} {next : α → α} {s : α}

/-- What comes back to a cell never ends. -/
theorem Loops.isLive (h : Loops live next s) (k : ℕ) : live (next^[k] s) := by
  obtain ⟨i, j, hij, heq, hlive⟩ := h
  induction k using Nat.strong_induction_on with
  | _ k ih =>
    by_cases hk : k < j
    · exact hlive k hk
    · -- the steps behind the second visit are those behind the first
      obtain ⟨m, rfl⟩ : ∃ m, k = m + j := ⟨k - j, by omega⟩
      rw [Function.iterate_add_apply, ← heq, ← Function.iterate_add_apply]
      exact ih (m + i) (by omega)

/-- Among finitely many cells a walk ends within as many steps, or it comes back to one of them. -/
theorem ends_or_loops {T : Finset α} (hT : ∀ a, live a → a ∈ T) (s : α) :
    (∃ k ≤ T.card, ¬ live (next^[k] s)) ∨ Loops live next s := by
  by_cases hend : ∃ k ≤ T.card, ¬ live (next^[k] s)
  · exact .inl hend
  · push Not at hend
    obtain ⟨i, hi, j, hj, hne, heq⟩ := Finset.exists_ne_map_eq_of_card_lt_of_maps_to
      (s := Finset.range (T.card + 1)) (t := T) (f := fun k => next^[k] s) (by simp)
      (fun k hk => hT _ (hend k (Nat.lt_succ_iff.mp (Finset.mem_range.mp hk))))
    have hle {k : ℕ} (hk : k ∈ Finset.range (T.card + 1)) : k ≤ T.card :=
      Nat.lt_succ_iff.mp (Finset.mem_range.mp hk)
    rcases Nat.lt_or_gt_of_ne hne with hlt | hgt
    · exact .inr ⟨i, j, hlt, heq, fun k hk => hend k (hk.le.trans (hle hj))⟩
    · exact .inr ⟨j, i, hgt, heq.symm, fun k hk => hend k (hk.le.trans (hle hi))⟩

end Loops

end TableWalk
