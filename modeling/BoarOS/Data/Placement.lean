import BoarOS.Data.UpdatedMap

namespace BoarOS.Data
open Function

/-! Items that are taken, kept in one place each and given back once. -/

variable {ι α : Type} {places : ι → Option α} {owned : α → Bool} {a b : ι} {item : α}

structure Placed (places : ι → Option α) (owned : α → Bool) : Prop where
  single : ∀ a b item, places a = some item → places b = some item → a = b
  owned : ∀ item, owned item = true ↔ ∃ a, places a = some item

namespace Placed

theorem owned_of (placed : Placed places owned) (here : places a = some item) : owned item = true := (placed.owned item).mpr ⟨a, here⟩

theorem rename (placed : Placed places owned) (from_ : κ → ι) (eq : ∀ c, renamed c ≠ none → renamed c = places (from_ c))
    (inj : ∀ c d, renamed c ≠ none → renamed d ≠ none → from_ c = from_ d → c = d)
    (all : ∀ a, places a ≠ none → ∃ c, from_ c = a ∧ renamed c = places a) : Placed renamed owned := by
  have some_ : ∀ c item, renamed c = some item → renamed c ≠ none ∧ places (from_ c) = some item := fun c item at_ =>
    ⟨by simp [at_], by rw [← eq c (by simp [at_]), at_]⟩
  refine ⟨fun c d item atC atD => inj c d (some_ c item atC).1 (some_ d item atD).1
    (placed.single _ _ item (some_ c item atC).2 (some_ d item atD).2), fun item => ?_⟩
  rw [placed.owned]
  constructor
  · rintro ⟨a, at_⟩
    obtain ⟨c, _, got⟩ := all a (by simp [at_])
    exact ⟨c, got.trans at_⟩
  · rintro ⟨c, at_⟩
    exact ⟨from_ c, (some_ c item at_).2⟩

variable [DecidableEq ι] [DecidableEq α]

theorem acquire (placed : Placed places owned) (new : owned item = false) (empty : places a = none) :
    Placed (update places a (some item)) (update owned item true) := by
  have out : ∀ c, places c ≠ some item := fun c here => by
    rw [placed.owned_of here] at new
    cases new
  refine ⟨fun c d k atC atD => ?_, fun k => ?_⟩
  · by_cases hereC : c = a <;> by_cases hereD : d = a
    · rw [hereC, hereD]
    · rw [hereC, update_self] at atC
      rw [update_of_ne hereD, ← atC] at atD
      exact absurd atD (out d)
    · rw [hereD, update_self] at atD
      rw [update_of_ne hereC, ← atD] at atC
      exact absurd atC (out c)
    · rw [update_of_ne hereC] at atC
      rw [update_of_ne hereD] at atD
      exact placed.single c d k atC atD
  by_cases eq : k = item
  · rw [eq, update_self]
    exact ⟨fun _ => ⟨a, update_self ..⟩, fun _ => rfl⟩
  rw [update_of_ne eq, placed.owned]
  constructor
  · rintro ⟨c, here⟩
    refine ⟨c, ?_⟩
    rw [update_of_ne, here]
    rintro rfl
    rw [empty] at here
    cases here
  rintro ⟨c, here⟩
  by_cases hereC : c = a
  · rw [hereC, update_self, Option.some.injEq] at here
    exact absurd here.symm eq
  · rw [update_of_ne hereC] at here
    exact ⟨c, here⟩

theorem release (placed : Placed places owned) (here : places a = some item) : Placed (update places a none) (update owned item false) := by
  have old : ∀ c other, update places a none c = some other → c ≠ a ∧ places c = some other :=
    fun c other at_ => by
      obtain ⟨_, ⟨⟩⟩ | ⟨eq, at_⟩ := of_update_eq at_
      exact ⟨eq, at_⟩
  refine ⟨fun c d other atC atD => placed.single c d other (old c other atC).2 (old d other atD).2, fun other => ?_⟩
  by_cases eq : other = item
  · rw [eq, update_self]
    simp only [Bool.false_eq_true, false_iff]
    rintro ⟨c, at_⟩
    obtain ⟨ne, at_⟩ := old c item at_
    exact ne (placed.single c a item at_ here)
  rw [update_of_ne eq, placed.owned]
  constructor
  · rintro ⟨c, at_⟩
    refine ⟨c, ?_⟩
    rw [update_of_ne, at_]
    rintro rfl
    rw [here, Option.some.injEq] at at_
    exact eq at_.symm
  · rintro ⟨c, at_⟩
    exact ⟨c, (old c other at_).2⟩

theorem move (placed : Placed places owned) (here : places a = some item) (empty : places b = none) :
    Placed (update (update places a none) b (some item)) owned := by
  have back : update (update owned item false) item true = owned := by
    rw [update_idem]
    exact update_eq_self_iff.mpr (placed.owned_of here).symm
  have clear : update places a none b = none := by
    by_cases eq : b = a
    · rw [eq, update_self]
    · rw [update_of_ne eq, empty]
  have moved := (placed.release here).acquire (update_self ..) clear
  rwa [back] at moved

end Placed
end BoarOS.Data
