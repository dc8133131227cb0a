import BoarOS.Pid.Steps

namespace BoarOS.Pid
open List Registry

/-! # Looking identities up and walking over them -/

open Data

variable {s after : Registry} {extra : Nat → Nat} {id word bits fuel n start low limit : Nat}

namespace Registry

def FirstAfter (s : Registry) (start : Nat) : Option Nat → Prop
  | some id => (s.identities id).published = .indexed ∧ start < (s.identities id).number ∧
      ∀ other, (s.identities other).published = .indexed → start < (s.identities other).number →
        (s.identities id).number ≤ (s.identities other).number
  | none => ∀ other, (s.identities other).published = .indexed → (s.identities other).number ≤ start

def ClearBelow (s : Registry) (start low : Nat) : Prop :=
  ∀ other, (s.identities other).published = .indexed → start < (s.identities other).number → low < (s.identities other).number

theorem Consistent.taken_of_indexed (inv : s.Consistent extra) (pub : (s.identities id).published = .indexed) :
    0 < (s.identities id).number ∧ s.numbers.taken ((s.identities id).number - 1) = true := by
  have has := inv.numbered_of_indexed pub
  have pos := inv.numbers.positive id has
  exact ⟨pos, (inv.numbers.taken _).mpr ⟨id, has, by omega⟩⟩

def BitsFrom (s : Registry) (word low bits : Nat) : Prop :=
  ∀ k, k < 64 → bits.testBit k = (s.numbers.taken (word * 64 + k) && decide (low ≤ word * 64 + k))

theorem taken_eq (k : Nat) (lt : k < 64) : s.numbers.taken (word * 64 + k) = (s.numbers.bitmap word).testBit k := by
  rw [Allocator.taken, show (word * 64 + k) / 64 = word by omega, show (word * 64 + k) % 64 = k by omega]

section
variable (inv : s.Consistent extra)
include inv

theorem Consistent.skip (clear : s.ClearBelow start low) (seen : s.BitsFrom word low bits) (reach : word * 64 ≤ low)
    (le : k ≤ 64) (first : ∀ j, j < k → bits.testBit j = false) : s.ClearBelow start (word * 64 + k) := by
  intro b pub above
  obtain ⟨_, taken⟩ := inv.taken_of_indexed pub
  have beyond := clear b pub above
  by_contra before
  have here := seen ((s.identities b).number - 1 - word * 64) (by omega)
  rw [first _ (by omega), show word * 64 + ((s.identities b).number - 1 - word * 64) =
    (s.identities b).number - 1 by omega, taken, decide_eq_true (by omega)] at here
  cases here

theorem Consistent.nextInWord (small : bits < 2 ^ 64) (seen : s.BitsFrom word low bits) (reach : word * 64 ≤ low)
    (started : start ≤ low) (clear : s.ClearBelow start low) (enough : word * 64 + 65 ≤ low + fuel) :
    (∃ res, s.nextInWord word fuel bits = some res ∧ s.FirstAfter start res) ∨
      (s.nextInWord word fuel bits = none ∧ s.ClearBelow start (word * 64 + 64)) := by
  -- Every turn clears one bit, so `low` passes it and the fuel lasts to the end of the word.
  induction fuel generalizing bits low with
  | zero =>
    right
    exact ⟨rfl, fun other pub above => by have := clear other pub above; omega⟩
  | succ fuel ih =>
    rw [nextInWord]
    by_cases empty : bits = 0
    · right
      rw [if_pos empty]
      exact ⟨rfl, inv.skip clear seen reach (Nat.le_refl 64) fun j _ => by rw [empty, Nat.zero_testBit]⟩
    obtain ⟨set, first⟩ := lowestBit_spec small empty
    have lt : lowestBit 64 bits < 64 := by
      by_contra beyond
      rw [Nat.testBit_lt_two_pow (lt_of_lt_of_le small (Nat.pow_le_pow_right (by omega) (by omega)))] at set
      cases set
    generalize lowestBit 64 bits = k at *
    have here := seen k lt
    rw [set, eq_comm, Bool.and_eq_true, decide_eq_true_eq] at here
    obtain ⟨taken, _⟩ := here
    have passed := inv.skip clear seen reach (le_of_lt lt) first
    rw [if_neg empty, if_neg (not_le.mpr (inv.numbers.ok.inside _ taken))]
    cases got : s.find (word * 64 + k + 1 : Nat) with
    | some id =>
      obtain ⟨pub, _⟩ := (inv.find_eq_some _).mp got
      left
      exact ⟨_, rfl, pub, by omega, fun other indexed later => by
        have := passed other indexed later
        omega⟩
    | none =>
      refine ih (lt_of_le_of_lt Nat.and_le_left small) (fun j within => ?_) (Nat.le_add_right_of_le (by omega))
        (by omega) (fun other indexed later => ?_) (show word * 64 + 65 ≤ word * 64 + k + 1 + fuel by omega)
      · rw [testBit_clearLowest set first, seen j within]
        rcases lt_trichotomy j k with pre | eq | later
        · have off := first j pre
          rw [seen j within] at off
          rw [off]
          simp [show ¬ k + 1 ≤ j by omega, add_assoc]
        · simp [eq]
        · simp [show j ≠ k by omega, show low ≤ word * 64 + j by omega, show word * 64 + k + 1 ≤ word * 64 + j by omega]
      · have beyond := passed other indexed later
        have ne : (s.identities other).number ≠ word * 64 + k + 1 := fun eq => by
          rw [(inv.find_eq_some _).mpr ⟨indexed, congrArg _ eq⟩] at got
          cases got
        omega

theorem Consistent.nextFrom (lt : bits < 2 ^ 64) (seen : s.BitsFrom word low bits) (reach : word * 64 ≤ low)
    (started : start ≤ low) (within : start ≤ word * 64 + 64) (clear : s.ClearBelow start low)
    (words : word + n = (s.numbers.limit + 63) / 64) : s.FirstAfter start (s.nextFrom word bits n) := by
  induction n generalizing word bits low with
  | zero =>
    intro j pub
    by_contra above
    obtain ⟨_, taken⟩ := inv.taken_of_indexed pub
    have mem := inv.numbers.ok.inside _ taken
    have beyond := clear j pub (by omega)
    omega
  | succ n ih =>
    rw [nextFrom]
    have enough : word * 64 + 65 ≤ low + 65 := Nat.add_le_add_right reach 65
    rcases inv.nextInWord lt seen reach started clear enough with ⟨_, got, first⟩ | ⟨none, passed⟩
    · rw [got]
      exact first
    rw [none]
    have next : (word + 1) * 64 = word * 64 + 64 := Nat.succ_mul word 64
    refine ih (inv.numbers.ok.words _) (fun k mem => ?_) le_rfl (by omega) (by omega) ?_ (by omega)
    · rw [taken_eq k mem]
      simp
    · rw [next]
      exact passed

theorem Consistent.nextPublished (start : Nat) : s.FirstAfter start (s.nextPublished start) := by
  unfold Registry.nextPublished
  by_cases beyond : s.numbers.limit ≤ start
  · rw [if_pos (.inr (.inr (by simpa using beyond)))]
    intro j pub
    obtain ⟨_, taken⟩ := inv.taken_of_indexed pub
    have mem := inv.numbers.ok.inside _ taken
    omega
  have valid := inv.numbers.ok.valid
  rw [if_neg (by simp [valid]; omega), Int.toNat_natCast]
  refine inv.nextFrom (lt_of_le_of_lt Nat.and_le_left (inv.numbers.ok.words _))
    (fun k mem => ?_) (by omega) (Nat.le_refl start) (by omega) (fun _ _ above => above) (by omega)
  rw [testBit_from (inv.numbers.ok.words _), taken_eq k mem]
  congr 1
  simp only [decide_eq_decide]
  omega

/-- Going on from each number to the next meets every published identity once, in ascending order. -/
theorem Consistent.enumerate (enough : s.numbers.limit < start + fuel) :
    (∀ id, id ∈ s.enumerate fuel start ↔ (s.identities id).published = .indexed ∧ start < (s.identities id).number) ∧
      (s.enumerate fuel start).Pairwise fun a b => (s.identities a).number < (s.identities b).number := by
  induction fuel generalizing start with
  | zero =>
    refine ⟨fun id => ⟨fun mem => (not_mem_nil mem).elim, fun ⟨pub, above⟩ => ?_⟩, List.Pairwise.nil⟩
    obtain ⟨_, taken⟩ := inv.taken_of_indexed pub
    have mem := inv.numbers.ok.inside _ taken
    omega
  | succ fuel ih =>
    have next := inv.nextPublished start
    rw [enumerate]
    cases got : s.nextPublished start with
    | none =>
      rw [got] at next
      refine ⟨fun id => ⟨fun mem => (not_mem_nil mem).elim, fun ⟨pub, above⟩ => ?_⟩, List.Pairwise.nil⟩
      exact absurd (next id pub) (not_le.mpr above)
    | some first =>
      rw [got] at next
      obtain ⟨pub, above, least⟩ := next
      obtain ⟨rest, sorted⟩ := ih (show s.numbers.limit < (s.identities first).number + fuel by omega)
      refine ⟨fun id => ?_, pairwise_cons.mpr ⟨fun b mem => ((rest b).mp mem).2, sorted⟩⟩
      rw [mem_cons, rest]
      constructor
      · rintro (rfl | ⟨indexed, later⟩)
        · exact ⟨pub, above⟩
        · exact ⟨indexed, lt_trans above later⟩
      rintro ⟨indexed, later⟩
      rcases lt_or_eq_of_le (least id indexed later) with more | eq
      · exact .inr ⟨indexed, more⟩
      · exact .inl (inv.numbers.unique id first (inv.numbered_of_indexed indexed) (inv.numbered_of_indexed pub) eq.symm)

end

/-- The least free number is given out; published identities are found by their numbers, in ascending order; and an
identity is retired once, after its number came back once. No call of a caller who owes nothing traps. -/
theorem pid_registry_sound (bounds : 0 < limit ∧ limit ≤ int32Max) (reached : Reachable limit s) :
    ((∀ index, s.numbers.taken index = true ↔ ∃ id, (s.identities id).Numbered ∧ (s.identities id).number = index + 1) ∧
      (∀ index, index < s.numbers.cursor → s.numbers.taken index = true)) ∧
    ((s.numbers.allocate = .error .exhausted ∧ ∀ i, i < s.numbers.limit → s.numbers.taken i = true) ∨
      ∃ i after, s.numbers.allocate = .ok (i + 1, after) ∧ i < s.numbers.limit ∧ s.numbers.taken i = false ∧
        ∀ j, j < i → s.numbers.taken j = true) ∧
    (∀ a b, (s.identities a).published = .indexed → (s.identities b).published = .indexed →
      (s.identities a).number = (s.identities b).number → a = b) ∧
    (s.reservations.Pairwise (· < ·) ∧ (∀ id, (s.identities id).registered = true → (s.identities id).generation ∈ s.reservations) ∧
      ∀ a b, (s.identities a).registered = true → (s.identities b).registered = true →
        (s.identities a).generation = (s.identities b).generation → a = b) ∧
    (∀ number id, s.find number = some id ↔ (s.identities id).published = .indexed ∧ ((s.identities id).number : Int) = number) ∧
    ((∀ start : Nat, s.FirstAfter start (s.nextPublished start)) ∧
      (∀ id, id ∈ s.enumerate (s.numbers.limit + 1) 0 ↔ (s.identities id).published = .indexed) ∧
      (s.enumerate (s.numbers.limit + 1) 0).Pairwise fun a b => (s.identities a).number < (s.identities b).number) ∧
    ((∀ id, (s.identities id).registered = true →
        (s.identities id).references = (s.identities id).handles + memberCount (s.identities id).members ∧
          (s.identities id).references ≠ 0) ∧
      (∀ id, (s.identities id).registered = false →
        (s.identities id).references = 0 ∧ (s.identities id).handles = 0 ∧ ∀ role, (s.identities id).members role = []) ∧
      (∀ g ∈ s.reservations, g ∈ s.retirements ↔ ¬ ∃ id, (s.identities id).registered = true ∧ (s.identities id).generation = g) ∧
      s.retirements.Nodup ∧ s.returned.Nodup ∧ (∀ g ∈ s.retirements, g ∈ s.returned)) ∧
    ∀ step, s.Disciplined step → (s.step step).isSome := by
  have inv := reached.consistent bounds
  obtain ⟨returnedNodup, retiredNodup, subset, _⟩ := inv.dated.once
  refine ⟨⟨inv.numbers.taken, inv.numbers.ok.below⟩, ?_, fun a b indexedA indexedB eq => ?_,
    ⟨?_, fun id live => (inv.dated.live id live).1, inv.dated.distinct⟩,
    fun number id => inv.find_eq_some number, ⟨inv.nextPublished, ?_⟩,
    ⟨fun id live => ?_, fun id idle => ?_, fun g res => ⟨?_, fun none => ?_⟩, retiredNodup, returnedNodup, subset⟩,
    fun step disciplined => inv.no_trap disciplined⟩
  · rcases inv.numbers.ok.allocate with full | ⟨i, next, taken, mem, free, lo, _⟩
    · exact .inl full
    · exact .inr ⟨i, next, taken, mem, free, lo⟩
  · exact inv.numbers.unique a b (inv.numbered_of_indexed indexedA) (inv.numbered_of_indexed indexedB) eq
  · rw [inv.dated.order.2]
    exact pairwise_lt_range'
  · obtain ⟨ms, sorted⟩ := inv.enumerate (show s.numbers.limit < 0 + (s.numbers.limit + 1) by omega)
    exact ⟨fun id => (ms id).trans ⟨And.left, fun pub =>
      ⟨pub, (inv.taken_of_indexed pub).1⟩⟩, sorted⟩
  · obtain ⟨n, some, _⟩ := (inv.counted id).held live
    exact ⟨n, some⟩
  · obtain ⟨refs, handles, empty, _⟩ := (inv.counted id).free idle
    exact ⟨refs, handles, unused_iff.mp empty⟩
  · rintro retired ⟨id, live, rfl⟩
    exact (inv.dated.live id live).2.1 retired
  · by_contra active
    exact none (inv.dated.lives g res active)

theorem Reachable.foldlM {steps : List Step} (reached : Reachable limit s) (kept : ∀ step ∈ steps, ∀ s, Matched s step)
    (ran : steps.foldlM Registry.step s = some after) : Reachable limit after := by
  induction steps generalizing s with
  | nil =>
    cases ran
    exact reached
  | cons first rest ih =>
    obtain ⟨_, stepped, ran⟩ := Option.bind_eq_some_iff.mp ran
    exact ih (reached.step (kept first (.head _) s) stepped) (fun step mem => kept step (.tail _ mem)) ran

/-- An identity is published and referenced, loses its last member, and its number goes to another one. -/
def reusedRun : List Step := [.publish 0, .attach 0 0 .tid 7, .get 0, .detach 0, .publish 1]

theorem reusedRun_reaches : ∃ s, Reachable 8 s ∧ (s.identities 0).published = .detached ∧
    (s.identities 1).published = .indexed ∧ (s.identities 1).number = 1 ∧ (s.identities 0).handles = 2 ∧
    s.nextPublished 0 = some 1 ∧ s.nextPublished (-1) = none ∧ (s.step (.attach 1 0 .tid 7)).isNone := by
  have ran : (reusedRun.foldlM Registry.step (initial 8)).map (fun s => decide ((s.identities 0).published = .detached ∧
      (s.identities 1).published = .indexed ∧ (s.identities 1).number = 1 ∧ (s.identities 0).handles = 2 ∧
      s.nextPublished 0 = some 1 ∧ s.nextPublished (-1) = none ∧ (s.step (.attach 1 0 .tid 7)).isNone)) =
      some true := by decide +kernel
  obtain ⟨s, ran, shape⟩ := Option.map_eq_some_iff.mp ran
  replace shape := of_decide_eq_true shape
  refine ⟨s, Reachable.initial.foldlM (fun step mem s => ?_) ran, shape⟩
  simp only [reusedRun, mem_cons, not_mem_nil, or_false] at mem
  rcases mem with rfl | rfl | rfl | rfl | rfl <;> trivial

/-- After a run without a superfluous put or detach, attaching to a referenced identity traps, and the walk from a
negative number meets nobody. -/
theorem attach_detached_traps : ∃ s, Reachable 8 s ∧ 0 < (s.identities 0).handles ∧
    (s.step (.attach 1 0 .tid 7)).isNone ∧ (s.identities 1).published = .indexed ∧ s.nextPublished (-1) = none := by
  obtain ⟨s, reached, _, pub, _, _, _, none, traps⟩ := reusedRun_reaches
  exact ⟨s, reached, by omega, traps, pub, none⟩

theorem pid_registry_sound_reused : ∃ s, Reachable 8 s ∧ s.nextPublished 0 = some 1 ∧
    (∀ index, index < s.numbers.cursor → s.numbers.taken index = true) ∧
    ∀ step, s.Disciplined step → (s.step step).isSome := by
  obtain ⟨s, reached, _, _, _, _, next, _⟩ := reusedRun_reaches
  have sound := pid_registry_sound (by decide) reached
  exact ⟨s, reached, next, sound.1.2, sound.2.2.2.2.2.2.2⟩

end Registry
end BoarOS.Pid
