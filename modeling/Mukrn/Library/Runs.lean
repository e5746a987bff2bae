import Mathlib.Data.Prod.Basic

/-! Runs of a partial step function with inputs. `ok` restricts the steps a run may take;
a ghost component records history without influencing the run. -/
namespace Runs

variable {σ ι γ : Type*}

/-- States reached from `s` by steps that satisfy `ok` in the state they start from. -/
inductive Reach (step : σ → ι → Option σ) (ok : σ → ι → Prop) (s : σ) : σ → Prop
  | refl : Reach step ok s s
  | tail {t u : σ} {i : ι} (h : Reach step ok s t) (hi : ok t i) (hu : step t i = some u) :
      Reach step ok s u

/-- Every step is allowed. -/
def anyStep (_ : σ) (_ : ι) : Prop := True

variable {step : σ → ι → Option σ} {ok ok' : σ → ι → Prop} {s t u : σ}

/-- What holds at the start and is kept by each allowed step holds in every reached state. -/
theorem Reach.invariant {P : σ → Prop} (h : Reach step ok s t) (h0 : P s)
    (hstep : ∀ t i u, P t → ok t i → step t i = some u → P u) : P t := by
  induction h with
  | refl => exact h0
  | tail _ hi hu ih => exact hstep _ _ _ ih hi hu

theorem Reach.trans (h : Reach step ok s t) (h' : Reach step ok t u) : Reach step ok s u := by
  induction h' with
  | refl => exact h
  | tail _ hi hu ih => exact .tail ih hi hu

theorem Reach.mono (h : Reach step ok s t) (hok : ∀ t i, ok t i → ok' t i) :
    Reach step ok' s t := by
  induction h with
  | refl => exact .refl
  | tail _ hi hu ih => exact .tail ih (hok _ _ hi) hu

/-- Run a step function beside a record that each step may extend. -/
def withGhost (step : σ → ι → Option σ) (record : σ → ι → σ → γ → γ) :
    σ × γ → ι → Option (σ × γ) :=
  fun x i => (step x.1 i).map fun u => (u, record x.1 i u x.2)

theorem withGhost_eq_some {record : σ → ι → σ → γ → γ} {x y : σ} {g g' : γ} {i : ι} :
    withGhost step record (x, g) i = some (y, g') ↔ step x i = some y ∧ g' = record x i y g := by
  simp only [withGhost, Option.map_eq_some_iff, Prod.mk.injEq]
  constructor
  · rintro ⟨v, hv, rfl, rfl⟩
    exact ⟨hv, rfl⟩
  · rintro ⟨hv, rfl⟩
    exact ⟨y, hv, rfl, rfl⟩

/-- Forgetting the record leaves a run. -/
theorem Reach.forget {record : σ → ι → σ → γ → γ} {okg : σ × γ → ι → Prop} {x y : σ × γ}
    (h : Reach (withGhost step record) okg x y) : Reach step anyStep x.1 y.1 := by
  induction h with
  | refl => exact .refl
  | @tail t u i _ _ hu ih => exact .tail ih trivial (withGhost_eq_some.mp hu).1

/-- What the turn of one element of a list brings about, and every turn keeps, holds at the end of
the loop. `P` is what the turns rely on. -/
theorem foldl_of_mem {f : σ → ι → σ} {P Q : σ → Prop} {l : List ι} {i : ι} (hi : i ∈ l) (hP : P s)
    (hkeep : ∀ s j, P s → P (f s j)) (hturn : ∀ s, P s → Q (f s i))
    (hQ : ∀ s j, P s → Q s → Q (f s j)) : Q (l.foldl f s) := by
  induction l generalizing s with
  | nil => cases hi
  | cons j l ih =>
    rw [List.foldl_cons]
    rcases List.mem_cons.mp hi with rfl | hi
    · have hboth : P (l.foldl f (f s i)) ∧ Q (l.foldl f (f s i)) :=
        List.foldlRecOn (motive := fun t => P t ∧ Q t) l f ⟨hkeep s i hP, hturn s hP⟩
          fun t ht k _ => ⟨hkeep t k ht.1, hQ t k ht.1 ht.2⟩
      exact hboth.2
    · exact ih hi (hkeep s j hP)

end Runs
