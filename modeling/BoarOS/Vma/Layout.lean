import BoarOS.Vma.Descriptor
import Mathlib.Data.List.Chain

namespace BoarOS.Vma
open List

/-! Lists of descriptors, independent of the array that stores them.

`Joined` and `Cut` are the two ways in which the set re-partitions the same
address ranges. Each measure of a list (the address map, byte sums, the
number of attachments) is related once to one join and one cut.
-/

variable {es res pre after : List KernelVma} {left right vma : KernelVma}
  {addr : UInt64}

structure Layout (entries : List KernelVma) : Prop where
  sound : ∀ vma ∈ entries, vma.Sound
  apart : entries.Pairwise fun a b => a.stop.toNat ≤ b.start.toNat

theorem Layout.nil : Layout [] := ⟨by simp, .nil⟩

theorem Layout.append_iff : Layout (pre ++ after) ↔ Layout pre ∧ Layout after ∧ ∀ a ∈ pre, ∀ b ∈ after, a.stop.toNat ≤ b.start.toNat := by
  constructor
  · rintro ⟨sound, apart⟩
    obtain ⟨first, snd, across⟩ := pairwise_append.mp apart
    exact ⟨⟨fun v mem => sound v (by simp [mem]), first⟩, ⟨fun v mem => sound v (by simp [mem]), snd⟩, across⟩
  rintro ⟨first, snd, across⟩
  refine ⟨?_, pairwise_append.mpr ⟨first.apart, snd.apart, across⟩⟩
  intro v mem
  rcases mem_append.mp mem with inFirst | inSecond
  · exact first.sound v inFirst
  · exact snd.sound v inSecond

theorem Layout.cons_iff : Layout (vma :: es) ↔ vma.Sound ∧ Layout es ∧ ∀ b ∈ es, vma.stop.toNat ≤ b.start.toNat := by
  constructor
  · rintro ⟨sound, apart⟩
    obtain ⟨first, rest⟩ := pairwise_cons.mp apart
    exact ⟨sound vma (by simp), ⟨fun v mem => sound v (by simp [mem]), rest⟩, first⟩
  rintro ⟨sound, rest, first⟩
  refine ⟨?_, pairwise_cons.mpr ⟨first, rest.apart⟩⟩
  intro v mem
  rcases mem_cons.mp mem with eq | inRest
  · exact eq ▸ sound
  · exact rest.sound v inRest

theorem Layout.insert (laid : Layout (pre ++ after)) (sound : vma.Sound) (lo : ∀ a ∈ pre, a.stop.toNat ≤ vma.start.toNat)
    (above : ∀ b ∈ after, vma.stop.toNat ≤ b.start.toNat) : Layout (pre ++ vma :: after) := by
  obtain ⟨first, snd, across⟩ := Layout.append_iff.mp laid
  refine Layout.append_iff.mpr ⟨first, Layout.cons_iff.mpr ⟨sound, snd, above⟩, ?_⟩
  intro a inBefore b mem
  rcases mem_cons.mp mem with eq | inAfter
  · exact eq ▸ lo a inBefore
  · exact across a inBefore b inAfter

/-- Neighbours that satisfy `can_merge` are replaced by one descriptor. -/
inductive Joined : List KernelVma → List KernelVma → Prop where
  | refl (entries : List KernelVma) : Joined entries entries
  | step {before after result : List KernelVma} {left right : KernelVma}
      (mergeable : left.Mergeable right)
      (rest : Joined (before ++ left.join right :: after) result) :
      Joined (before ++ left :: right :: after) result

/-- The entry strictly around `address`, if there is one, is cut in two. -/
inductive Cut (address : UInt64) : List KernelVma → List KernelVma → Prop where
  | outside {entries : List KernelVma}
      (none : ∀ vma ∈ entries, ¬ (vma.start < address ∧ address < vma.stop)) :
      Cut address entries entries
  | inside {before after : List KernelVma} {vma : KernelVma}
      (lower : vma.start < address) (upper : address < vma.stop) :
      Cut address (before ++ vma :: after) (before ++ vma.headTo address :: vma.tailFrom address :: after)

theorem Layout.join (laid : Layout (pre ++ left :: right :: after))
    (joins : left.Mergeable right) : Layout (pre ++ left.join right :: after) := by
  obtain ⟨first, snd, across⟩ := Layout.append_iff.mp laid
  obtain ⟨soundL, snd, _⟩ := Layout.cons_iff.mp snd
  obtain ⟨soundR, snd, rightApart⟩ := Layout.cons_iff.mp snd
  refine Layout.append_iff.mpr ⟨first, Layout.cons_iff.mpr ⟨soundL.join soundR joins, snd, rightApart⟩, ?_⟩
  intro a inBefore b inAfter
  rcases mem_cons.mp inAfter with eq | inAfter
  · subst eq
    exact across a inBefore left (by simp)
  · exact across a inBefore b (by simp [inAfter])

theorem Joined.layout (join : Joined es res) (laid : Layout es) : Layout res := by
  induction join with
  | refl => exact laid
  | step joins _ ih => exact ih (laid.join joins)

theorem Joined.measure (measure : List KernelVma → β)
    (eq : ∀ pre after left right, Layout (pre ++ left :: right :: after) → left.Mergeable right →
      measure (pre ++ left.join right :: after) = measure (pre ++ left :: right :: after)) (join : Joined es res) (laid : Layout es) :
    measure res = measure es := by
  induction join with
  | refl => rfl
  | step joins _ ih =>
    rw [ih (laid.join joins)]
    exact eq _ _ _ _ laid joins

theorem Joined.trans (first : Joined es res) (snd : Joined res last) : Joined es last := by
  induction first with
  | refl => exact snd
  | step joins _ ih => exact .step joins (ih snd)

theorem Joined.append_left (head : List KernelVma) (join : Joined es res) : Joined (head ++ es) (head ++ res) := by
  induction join with
  | refl => exact .refl _
  | step joins _ ih =>
    rw [← append_assoc]
    refine .step joins ?_
    simpa only [append_assoc] using ih

theorem Cut.layout (cut : Cut addr es res) (laid : Layout es) : Layout res := by
  cases cut with
  | outside => exact laid
  | inside lower upper =>
    rename_i pre after vma
    obtain ⟨first, snd, across⟩ := Layout.append_iff.mp laid
    obtain ⟨sound, snd, apart⟩ := Layout.cons_iff.mp snd
    refine Layout.append_iff.mpr ⟨first, Layout.cons_iff.mpr ⟨sound.headTo lower (le_of_lt upper), Layout.cons_iff.mpr
        ⟨sound.tailFrom (le_of_lt lower) upper, snd, apart⟩, ?_⟩, ?_⟩
    · intro b inRest
      rcases mem_cons.mp inRest with eq | inRest
      · subst eq
        exact le_rfl
      · exact le_trans (le_of_lt upper) (apart b inRest)
    intro a inBefore b inRest
    have lo := across a inBefore vma (by simp)
    rcases mem_cons.mp inRest with eq | inRest
    · subst eq
      exact lo
    rcases mem_cons.mp inRest with eq | inRest
    · subst eq
      exact le_trans lo (le_of_lt lower)
    · exact across a inBefore b (by simp [inRest])

theorem Cut.clear (cut : Cut addr es res) (laid : Layout es) : ∀ vma ∈ res, vma.stop.toNat ≤ addr.toNat ∨ addr.toNat ≤ vma.start.toNat := by
  cases cut with
  | outside none =>
    intro vma mem
    have := none vma mem
    rw [UInt64.lt_iff_toNat_lt, UInt64.lt_iff_toNat_lt] at this
    omega
  | inside lo upper =>
    rename_i pre after around
    obtain ⟨_, snd, across⟩ := Layout.append_iff.mp laid
    obtain ⟨_, _, apart⟩ := Layout.cons_iff.mp snd
    intro vma mem
    simp only [mem_append, mem_cons] at mem
    rcases mem with inBefore | eq | eq | inAfter
    · exact .inl (le_trans (across vma inBefore around (by simp)) (le_of_lt lo))
    · exact .inl (eq ▸ le_rfl)
    · exact .inr (eq ▸ le_rfl)
    · exact .inr (le_trans (le_of_lt upper) (apart vma inAfter))

def KernelVma.length (vma : KernelVma) : Nat := vma.stop.toNat - vma.start.toNat

def bytesOf (selected : KernelVma → Bool) : List KernelVma → Nat
  | [] => 0
  | vma :: rest => (if selected vma then vma.length else 0) + bytesOf selected rest

@[simp] theorem bytesOf_nil (selected : KernelVma → Bool) : bytesOf selected [] = 0 := rfl

@[simp] theorem bytesOf_cons (sel : KernelVma → Bool) : bytesOf sel (vma :: es) =
    (if sel vma then vma.length else 0) + bytesOf sel es := rfl

@[simp] theorem bytesOf_append (sel : KernelVma → Bool) : bytesOf sel (pre ++ after) = bytesOf sel pre + bytesOf sel after := by
  induction pre with
  | nil => simp
  | cons vma rest ih => simp only [cons_append, bytesOf_cons, ih, add_assoc]

/-- A predicate that does not look at addresses or offsets. -/
def Positionless (selected : KernelVma → Bool) : Prop :=
  ∀ vma start stop offset, selected { vma with start := start, stop := stop, backingOffset := offset } = selected vma

theorem Positionless.mergeable (positionless : Positionless sel) (joins : left.Mergeable right) : sel right = sel left := by
  have moved : right = { left with
      start := right.start, stop := right.stop, backingOffset := right.backingOffset } := by
    cases right
    obtain ⟨_, perms, kind, role, policy, flags, backing, att, maximum, _⟩ := joins
    simp only at perms kind role policy flags backing att maximum
    simp only [perms, kind, role, policy, flags, backing, att, maximum]
  rw [moved]
  exact positionless left _ _ _

theorem bytesOf_join (positionless : Positionless sel) (laid : Layout (pre ++ left :: right :: after)) (joins : left.Mergeable right) :
    bytesOf sel (pre ++ left.join right :: after) = bytesOf sel (pre ++ left :: right :: after) := by
  have leftOrder := (laid.sound left (by simp)).nonempty
  have rightOrder := (laid.sound right (by simp)).nonempty
  have touching : left.stop.toNat = right.start.toNat := by rw [joins.adjacent]
  have whole : sel (left.join right) = sel left := positionless left _ right.stop _
  simp only [bytesOf_append, bytesOf_cons, whole, positionless.mergeable joins]
  cases sel left with
  | true =>
    simp only [if_true, KernelVma.length, KernelVma.join_start, KernelVma.join_stop]
    omega
  | false => simp

theorem Joined.bytesOf (positionless : Positionless sel) (join : Joined es res) (lay : Layout es) : bytesOf sel res = Vma.bytesOf sel es :=
  join.measure (Vma.bytesOf sel) (fun _ _ _ _ laid joins => bytesOf_join positionless laid joins) lay

theorem Layout.bytesOf_le (sel : KernelVma → Bool) (laid : Layout es) (above : ∀ vma ∈ es, floor ≤ vma.start.toNat)
    (le : floor ≤ uint64Max.toNat) : floor + Vma.bytesOf sel es ≤ uint64Max.toNat := by
  induction es generalizing floor with
  | nil => simpa using le
  | cons vma rest ih =>
    obtain ⟨sound, rest, apart⟩ := Layout.cons_iff.mp laid
    have tail := ih rest apart (toNat_le_uint64Max _)
    have first := above vma (by simp)
    have ne := sound.nonempty
    rw [bytesOf_cons, KernelVma.length]
    split <;> omega

end BoarOS.Vma
