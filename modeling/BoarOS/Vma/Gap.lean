import BoarOS.Vma.Properties

namespace BoarOS.Vma
open Data UInt64

/-! # The top-down search for a free range

The definitions follow `kernel_vma_set_find_topdown_gap`.
-/

namespace KernelVmaSet

/-- The test after the loop: the range below the lowest entry that was seen. -/
def lastGap (lower length cursor : UInt64) : Status × Option UInt64 :=
  if lower ≤ cursor ∧ length ≤ cursor - lower then (.ok, some (cursor - length)) else (.notFound, none)

def gapLoop (entries : Nat → KernelVma) (lower upper length : UInt64) : Nat → UInt64 → Status × Option UInt64
  | 0, cursor => lastGap lower length cursor
  | index + 1, cursor =>
    let entry := entries index
    if upper ≤ entry.start then gapLoop entries lower upper length index cursor
    else if entry.stop ≤ lower then lastGap lower length cursor
    else
      let gapStart := if lower < entry.stop then entry.stop else lower
      if gapStart < cursor ∧ length ≤ cursor - gapStart then (.ok, some (cursor - length))
      else gapLoop entries lower upper length index (if entry.start < cursor then entry.start else cursor)

def findTopdownGap (set : KernelVmaSet) (hint lower upper length : UInt64) : Status × Option UInt64 :=
  if !set.valid || upper ≤ lower || length = 0 || upper - lower < length then (.invalidArgument, none)
  else if lower ≤ hint ∧ hint ≤ upper - length ∧ set.overlaps hint (hint + length) = some false then (.ok, some hint)
  else gapLoop set.entries lower upper length set.count upper

/-- `[address, address + length)` lies in `[lower, upper)` and meets no entry. -/
def Vacant (set : KernelVmaSet) (lower upper length address : UInt64) : Prop :=
  lower.toNat ≤ address.toNat ∧ address.toNat + length.toNat ≤ upper.toNat ∧
    ∀ vma ∈ set.live, vma.stop.toNat ≤ address.toNat ∨ address.toNat + length.toNat ≤ vma.start.toNat

/-- What a search over `candidates` may answer: its greatest element, or that it is empty. -/
inductive Greatest (candidates : UInt64 → Prop) : Status × Option UInt64 → Prop where
  | found {address : UInt64} (candidate : candidates address)
      (greatest : ∀ other, candidates other → other ≤ address) : Greatest candidates (.ok, some address)
  | missing (empty : ∀ address, ¬ candidates address) : Greatest candidates (.notFound, none)

variable {set : KernelVmaSet} {lo upper length cursor cur : UInt64} {index : Nat}

/-- What the loop has established before `index`: the entries behind it start
at the cursor or later, and no vacant range ends above the cursor. -/
structure Scan (set : KernelVmaSet) (lower upper length : UInt64) (index : Nat) (cursor : UInt64) : Prop where
  bounded : cursor.toNat ≤ upper.toNat
  behind : ∀ cell, index ≤ cell → cell < set.count → cursor.toNat ≤ (set.entries cell).start.toNat
  exhausted : ∀ a, set.Vacant lower upper length a → a.toNat + length.toNat ≤ cursor.toNat

theorem sub_toNat {a b : UInt64} (le : b.toNat ≤ a.toNat) : (a - b).toNat = a.toNat - b.toNat :=
  UInt64.toNat_sub_of_le _ _ (le_iff_toNat_le.mpr le)

/-- The highest range below the cursor is the answer once the entries before
`index` leave it free. -/
theorem Scan.found (scan : Scan set lo upper length index cur) (low : lo.toNat + length.toNat ≤ cur.toNat)
    (clear : ∀ cell, cell < index → (set.entries cell).stop.toNat + length.toNat ≤ cur.toNat) :
    Greatest (set.Vacant lo upper length) (.ok, some (cur - length)) := by
  have bounded := scan.bounded
  have place : (cur - length).toNat = cur.toNat - length.toNat := sub_toNat (by omega)
  refine .found ⟨by omega, by omega, fun vma mem => ?_⟩ fun other vacant => ?_
  · obtain ⟨cell, inside, eq⟩ := mem_segment.mp mem
    rw [zero_add] at eq
    subst eq
    by_cases seen : index ≤ cell
    · have := scan.behind cell seen inside
      exact .inr (by omega)
    · have := clear cell (by omega)
      exact .inl (by omega)
  · have := scan.exhausted other vacant
    rw [le_iff_toNat_le]
    omega

theorem Scan.lastGap (scan : Scan set lo upper length index cur) (below : ∀ cell, cell < index → (set.entries cell).stop.toNat ≤ lo.toNat) :
    Greatest (set.Vacant lo upper length) (lastGap lo length cur) := by
  unfold KernelVmaSet.lastGap
  split
  next room =>
    rw [le_iff_toNat_le, le_iff_toNat_le] at room
    rw [sub_toNat room.1] at room
    refine scan.found (by omega) fun cell early => ?_
    have := below cell early
    omega
  rename_i small
  refine .missing fun other vacant => small ?_
  have ends := scan.exhausted other vacant
  have above := vacant.1
  rw [le_iff_toNat_le, le_iff_toNat_le, sub_toNat (by omega)]
  omega

theorem gapLoop_greatest (lay : Layout set.live) (positive : 0 < length.toNat) (inside : index ≤ set.count)
    (scan : Scan set lo upper length index cur) :
    Greatest (set.Vacant lo upper length) (gapLoop set.entries lo upper length index cur) := by
  induction index generalizing cur with
  | zero => exact scan.lastGap nofun
  | succ index ih =>
    have mem := entry_mem (show index < set.count by omega)
    have nonempty := (lay.sound _ mem).nonempty
    have bounded := scan.bounded
    have earlier {bound : Nat} (stops : (set.entries index).stop.toNat ≤ bound) :
        ∀ cell, cell < index + 1 → (set.entries cell).stop.toNat ≤ bound := fun cell early => by
      rcases Nat.lt_succ_iff_lt_or_eq.mp early with lt | rfl
      · have := entries_apart lay lt (by omega)
        omega
      · exact stops
    have moved {next : UInt64} (le : next.toNat ≤ cur.toNat) (starts : next.toNat ≤ (set.entries index).start.toNat)
        (exhausted : ∀ a, set.Vacant lo upper length a → a.toNat + length.toNat ≤ next.toNat) :
        Scan set lo upper length index next := by
      refine ⟨by omega, fun cell late inside => ?_, exhausted⟩
      rcases eq_or_lt_of_le late with rfl | later
      · exact starts
      have := scan.behind cell later inside
      omega
    rw [gapLoop]
    dsimp only
    split
    · -- an entry beyond the window does not move the cursor
      rename_i beyond
      rw [le_iff_toNat_le] at beyond
      exact ih (by omega) (moved le_rfl (by omega) scan.exhausted)
    split
    next under =>
      exact scan.lastGap (earlier (le_iff_toNat_le.mp under))
    rename_i meets
    rw [le_iff_toNat_le] at meets
    rw [if_pos (lt_iff_toNat_lt.mpr (by omega))]
    split
    next room =>
      rw [lt_iff_toNat_lt, le_iff_toNat_le] at room
      rw [sub_toNat (by omega)] at room
      refine scan.found (by omega) fun cell early => ?_
      have := earlier le_rfl cell early
      omega
    -- a vacant range between the entry and the cursor would have been taken
    rename_i small
    have taken : ∀ a, set.Vacant lo upper length a → a.toNat + length.toNat ≤ (set.entries index).start.toNat := fun a vacant => by
      have ends := scan.exhausted a vacant
      rcases vacant.2.2 _ mem with _ | before
      · refine absurd ?_ small
        rw [lt_iff_toNat_lt, le_iff_toNat_le, sub_toNat (by omega)]
        omega
      · exact before
    split
    next ord =>
      rw [lt_iff_toNat_lt] at ord
      exact ih (by omega) (moved (by omega) le_rfl taken)
    next ord =>
      rw [lt_iff_toNat_lt] at ord
      exact ih (by omega) (moved le_rfl (by omega) scan.exhausted)

end KernelVmaSet

open KernelVmaSet

/-- The hint is returned when it is vacant. Otherwise the search finds the
greatest vacant address, and it fails only if there is none. -/
theorem topdown_gap_greatest {set : KernelVmaSet} (wf : WellFormed set) (hint lower upper length : UInt64)
    (ordered : lower < upper) (positive : 0 < length) (fits : length ≤ upper - lower) :
    (set.Vacant lower upper length hint → set.findTopdownGap hint lower upper length = (.ok, some hint)) ∧
    (¬ set.Vacant lower upper length hint → (∃ address, set.findTopdownGap hint lower upper length = (.ok, some address) ∧
        set.Vacant lower upper length address ∧
        ∀ other, set.Vacant lower upper length other → other ≤ address) ∨
      set.findTopdownGap hint lower upper length = (.notFound, none)) ∧
    (set.findTopdownGap hint lower upper length = (.notFound, none) ↔ ∀ address, ¬ set.Vacant lower upper length address) := by
  have accepted : ¬ (!set.valid || decide (upper ≤ lower) || decide (length = 0) || decide (upper - lower < length)) = true := by
    have nonzero : length ≠ 0 := fun zero => UInt64.lt_irrefl _ (zero ▸ positive)
    simp [wf.valid, nonzero, UInt64.not_le.mpr ordered, UInt64.not_lt.mpr fits]
  rw [lt_iff_toNat_lt] at ordered positive
  rw [le_iff_toNat_le, sub_toNat (by omega)] at fits
  have hinted : (lower ≤ hint ∧ hint ≤ upper - length ∧ set.overlaps hint (hint + length) = some false) ↔
      set.Vacant lower upper length hint := by
    rw [le_iff_toNat_le, le_iff_toNat_le, sub_toNat (by omega)]
    refine and_congr_right fun _ => (and_congr_right fun top => ?_).trans (and_congr_left fun _ => by omega)
    have size := upper.toNat_lt
    have reach : (hint + length).toNat = hint.toNat + length.toNat := by
      rw [UInt64.toNat_add, Nat.mod_eq_of_lt (by omega)]
    obtain ⟨_, got, iff⟩ := overlaps_spec wf.valid wf.layout
      (show hint.toNat < (hint + length).toNat by rw [reach]; exact Nat.lt_add_of_pos_right positive)
    rw [got, Option.some.injEq, ← Bool.not_eq_true, iff, Overlaps]
    grind
  have greatest : Greatest (set.Vacant lower upper length) _ := gapLoop_greatest wf.layout positive le_rfl
    ⟨Nat.le_refl upper.toNat, fun cell early mem => by omega, fun a vacant => vacant.2.1⟩
  unfold findTopdownGap
  rw [if_neg accepted]
  by_cases vacant : set.Vacant lower upper length hint
  · rw [if_pos (hinted.mpr vacant)]
    exact ⟨fun _ => rfl, fun wrong => absurd vacant wrong, nofun, fun none => absurd vacant (none hint)⟩
  rw [if_neg fun test => vacant (hinted.mp test)]
  generalize gapLoop set.entries lower upper length set.count upper = out at greatest
  refine ⟨fun wrong => absurd wrong vacant, fun _ => ?_, ?_⟩
  · cases greatest with
    | found candidate greatest => exact .inl ⟨_, rfl, candidate, greatest⟩
    | missing => exact .inr rfl
  cases greatest with
  | found candidate => exact ⟨nofun, fun none => absurd candidate (none _)⟩
  | missing empty => exact ⟨fun _ => empty, fun _ => rfl⟩

theorem topdown_gap_greatest_mapped : mappedSet.findTopdownGap 0x2000 0x1000 0x4000 0x1000 = (.notFound, none) ↔
    ∀ address, ¬ mappedSet.Vacant 0x1000 0x4000 0x1000 address :=
  (topdown_gap_greatest mappedSet_wellFormed 0x2000 0x1000 0x4000 0x1000 (by decide) (by decide) (by decide)).2.2

end BoarOS.Vma
