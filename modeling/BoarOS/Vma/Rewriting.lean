import BoarOS.Vma.View
import BoarOS.Vma.Attachments

namespace BoarOS.Vma
open Data List KernelVma KernelVmaSet Layout

/-! What a committed edit does to the list of entries: two cuts, new contents
between them, and joins. -/

variable {es res pre mid after : List KernelVma} {vma : KernelVma}
  {start stop addr : UInt64}

def Overlaps (entries : List KernelVma) (start stop : UInt64) : Prop :=
  ∃ vma ∈ entries, vma.start.toNat < stop.toNat ∧ start.toNat < vma.stop.toNat

def Straddles (entries : List KernelVma) (address : UInt64) : Prop :=
  ∃ vma ∈ entries, vma.start.toNat < address.toNat ∧ address.toNat < vma.stop.toNat

theorem Straddles.overlaps_start (straddles : Straddles es start) (lt : start.toNat < stop.toNat) : Overlaps es start stop := by
  obtain ⟨vma, mem, lo, upper⟩ := straddles
  exact ⟨vma, mem, by omega, upper⟩

theorem Straddles.overlaps_stop (straddles : Straddles es stop) (lt : start.toNat < stop.toNat) : Overlaps es start stop := by
  obtain ⟨vma, mem, lo, upper⟩ := straddles
  exact ⟨vma, mem, lo, by omega⟩

/-- An entry of the result is a part of one entry with the same attributes. -/
def PartOf (piece whole : KernelVma) : Prop :=
  whole.start.toNat ≤ piece.start.toNat ∧ piece.stop.toNat ≤ whole.stop.toNat ∧ piece = { whole with
      start := piece.start, stop := piece.stop, backingOffset := piece.backingOffset }

theorem Cut.partOf (cut : Cut addr es res) (mem : vma ∈ res) : ∃ whole ∈ es, PartOf vma whole := by
  cases cut with
  | outside => exact ⟨vma, mem, le_rfl, le_rfl, rfl⟩
  | inside lo upper =>
    rename_i pre after around
    simp only [mem_append, mem_cons] at mem
    rcases mem with inBefore | eq | eq | inAfter
    · exact ⟨vma, by simp [inBefore], le_rfl, le_rfl, rfl⟩
    · exact ⟨around, by simp, eq ▸ ⟨le_rfl, le_of_lt upper, rfl⟩⟩
    · exact ⟨around, by simp, eq ▸ ⟨le_of_lt lo, le_rfl, rfl⟩⟩
    · exact ⟨vma, by simp [inAfter], le_rfl, le_rfl, rfl⟩

theorem PartOf.trans (first : PartOf piece part) (snd : PartOf part whole) : PartOf piece whole := by
  obtain ⟨lo, upper, eq⟩ := first
  obtain ⟨outerLower, outerUpper, outerSame⟩ := snd
  refine ⟨by omega, by omega, ?_⟩
  rw [eq, outerSame]

theorem Cut.straddles (cut : Cut addr es res) (straddles : Straddles res other) : Straddles es other := by
  obtain ⟨vma, mem, lo, upper⟩ := straddles
  obtain ⟨whole, inEntries, wholeLower, wholeUpper, _⟩ := cut.partOf mem
  exact ⟨whole, inEntries, by omega, by omega⟩

theorem Layout.split_at (laid : Layout es) (addr : UInt64) (clear : ∀ vma ∈ es,
      vma.stop.toNat ≤ addr.toNat ∨ addr.toNat ≤ vma.start.toNat) :
    ∃ pre after, es = pre ++ after ∧ (∀ a ∈ pre, a.stop.toNat ≤ addr.toNat) ∧ ∀ b ∈ after, addr.toNat ≤ b.start.toNat := by
  induction es with
  | nil => exact ⟨[], [], rfl, by simp, by simp⟩
  | cons vma rest ih =>
    obtain ⟨sound, restLayout, apart⟩ := cons_iff.mp laid
    rcases clear vma (by simp) with lo | above
    · obtain ⟨pre, after, split, first, snd⟩ := ih restLayout fun v mem => clear v (by simp [mem])
      refine ⟨vma :: pre, after, by rw [split]; rfl, ?_, snd⟩
      intro a mem
      rcases mem_cons.mp mem with eq | mem
      · exact eq ▸ lo
      · exact first a mem
    refine ⟨[], vma :: rest, rfl, by simp, ?_⟩
    intro b mem
    have ne := sound.nonempty
    rcases mem_cons.mp mem with eq | mem
    · exact eq ▸ above
    have := apart b mem
    omega

/-- The three parts of a list that is cut at both ends of a range. -/
structure Parts (entries : List KernelVma) (start stop : UInt64) (before middle after : List KernelVma) : Prop where
  split : entries = before ++ (middle ++ after)
  below : ∀ a ∈ before, a.stop.toNat ≤ start.toNat
  inside : ∀ m ∈ middle, start.toNat ≤ m.start.toNat ∧ m.stop.toNat ≤ stop.toNat
  above : ∀ b ∈ after, stop.toNat ≤ b.start.toNat

theorem Layout.parts (laid : Layout es) (clearStart : ∀ vma ∈ es, vma.stop.toNat ≤ start.toNat ∨ start.toNat ≤ vma.start.toNat)
    (clearStop : ∀ vma ∈ es, vma.stop.toNat ≤ stop.toNat ∨ stop.toNat ≤ vma.start.toNat) :
    ∃ pre mid after, Parts es start stop pre mid after := by
  obtain ⟨pre, rest, split, lo, beyond⟩ := laid.split_at start clearStart
  obtain ⟨_, restLayout, _⟩ := append_iff.mp (split ▸ laid)
  obtain ⟨mid, after, restSplit, mem, above⟩ := restLayout.split_at stop fun v member => clearStop v (by rw [split]; simp [member])
  refine ⟨pre, mid, after, by rw [split, restSplit], lo, ?_, above⟩
  intro m member
  exact ⟨beyond m (by rw [restSplit]; simp [member]), mem m member⟩

namespace Parts
variable (parts : Parts es start stop pre mid after)
include parts

theorem viewAt_inside (lo : start.toNat ≤ addr.toNat) (upper : addr.toNat < stop.toNat) : viewAt es addr = viewAt mid addr := by
  have first : viewAt pre addr = none := viewAt_below fun a mem => le_trans (parts.below a mem) lo
  have last : viewAt after addr = none := viewAt_above fun b mem => lt_of_lt_of_le upper (parts.above b mem)
  rw [parts.split, viewAt_append, viewAt_append, first, last]
  cases viewAt mid addr <;> rfl

theorem viewAt_outside (out : ¬ (start.toNat ≤ addr.toNat ∧ addr.toNat < stop.toNat)) :
    viewAt es addr = (viewAt pre addr).or (viewAt after addr) := by
  have unmapped : viewAt mid addr = none := by
    refine viewAt_eq_none.mpr fun m mem => covers_false_iff.mpr ?_
    have := parts.inside m mem
    omega
  rw [parts.split, viewAt_append, viewAt_append, unmapped]
  rfl

theorem replace (mem : ∀ r ∈ new, start.toNat ≤ r.start.toNat ∧ r.stop.toNat ≤ stop.toNat) :
    Parts (pre ++ (new ++ after)) start stop pre new after :=
  ⟨rfl, parts.below, mem, parts.above⟩

theorem replace_layout (laid : Layout es) (freshLayout : Layout new)
    (mem : ∀ r ∈ new, start.toNat ≤ r.start.toNat ∧ r.stop.toNat ≤ stop.toNat) : Layout (pre ++ (new ++ after)) := by
  obtain ⟨first, rest, across⟩ := append_iff.mp (parts.split ▸ laid)
  obtain ⟨_, last, _⟩ := append_iff.mp rest
  refine append_iff.mpr ⟨first, append_iff.mpr ⟨freshLayout, last, ?_⟩, ?_⟩
  · intro r inFresh b inAfter
    exact le_trans (mem r inFresh).2 (parts.above b inAfter)
  intro a inBefore r member
  rcases mem_append.mp member with inFresh | inAfter
  · exact le_trans (parts.below a inBefore) (mem r inFresh).1
  · exact across a inBefore r (by simp [inAfter])

end Parts

theorem viewAt_of_apart (apart : ¬ Overlaps es start stop) (lo : start.toNat ≤ addr.toNat)
    (upper : addr.toNat < stop.toNat) : viewAt es addr = none := by
  refine viewAt_eq_none.mpr fun vma member => covers_false_iff.mpr fun mem => ?_
  exact apart ⟨vma, member, by omega, by omega⟩

theorem Layout.gap (laid : Layout es) (lt : start.toNat < stop.toNat)
    (unmapped : ∀ addr : UInt64, start.toNat ≤ addr.toNat → addr.toNat < stop.toNat → viewAt es addr = none) :
    ∃ pre after, es = pre ++ after ∧ (∀ a ∈ pre, a.stop.toNat ≤ start.toNat) ∧ ∀ b ∈ after, stop.toNat ≤ b.start.toNat := by
  have apart : ∀ vma ∈ es, vma.stop.toNat ≤ start.toNat ∨ stop.toNat ≤ vma.start.toNat := by
    intro vma mem
    have ne := (laid.sound vma mem).nonempty
    by_cases lower : vma.start.toNat ≤ start.toNat
    · have out := viewAt_eq_none.mp (unmapped start le_rfl lt) vma mem
      rw [covers_false_iff] at out
      omega
    by_cases upper : vma.start.toNat < stop.toNat
    · have out := viewAt_eq_none.mp (unmapped vma.start (by omega) upper) vma mem
      rw [covers_false_iff] at out
      omega
    · omega
  obtain ⟨pre, after, split, lo, above⟩ := laid.split_at start fun vma mem => by
    have := apart vma mem
    omega
  refine ⟨pre, after, split, lo, fun b mem => ?_⟩
  have inEntries : b ∈ es := by rw [split]; simp [mem]
  have ne := (laid.sound b inEntries).nonempty
  have := above b mem
  have := apart b inEntries
  omega

theorem Overlaps.middle_ne_nil (laid : Layout es) (overlaps : Overlaps es start stop) (lt : start.toNat < stop.toNat)
    (cutStart : Cut start es first) (cutStop : Cut stop first snd) (parts : Parts snd start stop pre mid after) : mid ≠ [] := by
  obtain ⟨vma, mem, lo, upper⟩ := overlaps
  have ne := (laid.sound vma mem).nonempty
  have eq := (cutStop.viewAt (cutStart.layout laid)).trans (cutStart.viewAt laid)
  let addr := if vma.start.toNat ≤ start.toNat then start else vma.start
  have seen : vma.covers addr = true := by
    rw [covers_iff]
    by_cases pre : vma.start.toNat ≤ start.toNat
    · rw [show addr = start from if_pos pre]
      exact ⟨pre, upper⟩
    · rw [show addr = vma.start from if_neg pre]
      exact ⟨le_rfl, ne⟩
  have inRange : start.toNat ≤ addr.toNat ∧ addr.toNat < stop.toNat := by
    by_cases pre : vma.start.toNat ≤ start.toNat
    · rw [show addr = start from if_pos pre]
      omega
    · rw [show addr = vma.start from if_neg pre]
      omega
  have mapped := viewAt_isSome.mpr ⟨vma, mem, seen⟩
  rw [← eq, parts.viewAt_inside inRange.1 inRange.2] at mapped
  intro none
  rw [none] at mapped
  contradiction

theorem Cut.clear_cut (laid : Layout es) (cutStart : Cut start es first)
    (cutStop : Cut stop first snd) : ∀ vma ∈ snd, vma.stop.toNat ≤ start.toNat ∨ start.toNat ≤ vma.start.toNat := by
  intro vma mem
  obtain ⟨whole, inFirst, lower, upper, _⟩ := cutStop.partOf mem
  rcases cutStart.clear laid whole inFirst with lo | above
  · exact .inl (le_trans upper lo)
  · exact .inr (le_trans above lower)

def replaced (edit : KernelVmaEdit) (middle : List KernelVma) : List KernelVma :=
  match edit.kind with
  | .protect | .flags => middle.map (KernelVmaSet.editEntry edit)
  | .remove => []
  | .replace => [edit.replacement]

/-- The flag bits of an edit: known, inside the mask, and not changing the lock
pair to the one forbidden value. -/
structure FlagsAllowed (mask flags : BitVec 32) : Prop where
  known : mask &&& ~~~allFlags = 0
  masked : flags &&& ~~~mask = 0
  lockPair : mask &&& lockMask = 0 ∨ (mask &&& lockMask = lockMask ∧ flags &&& lockMask ≠ flagLockOnfault)

theorem and_not_eq_zero_iff {width : Nat} {bits ok : BitVec width} : bits &&& ~~~ok = 0 ↔
      ∀ i, i < width → bits.getLsbD i = true → ok.getLsbD i = true := by
  constructor
  · intro none i mem set
    have bit := congrArg (·.getLsbD i) none
    simpa [mem, set] using bit
  intro subset
  ext i mem
  have bit := subset i mem
  rw [BitVec.getLsbD_eq_getElem mem, BitVec.getLsbD_eq_getElem mem] at bit
  simpa using bit

theorem FlagsAllowed.known_flags {mask flags old : BitVec 32} (ok : FlagsAllowed mask flags)
    (known : old &&& ~~~allFlags = 0) : ((old &&& ~~~mask) ||| flags) &&& ~~~allFlags = 0 := by
  rw [and_not_eq_zero_iff] at known ⊢
  intro i mem bit
  rw [BitVec.getLsbD_or, BitVec.getLsbD_and, Bool.or_eq_true, Bool.and_eq_true] at bit
  rcases bit with ⟨oldBit, _⟩ | newBit
  · exact known i mem oldBit
  · exact and_not_eq_zero_iff.mp ok.known i mem (and_not_eq_zero_iff.mp ok.masked i mem newBit)

theorem FlagsAllowed.lock_flags {mask flags old : BitVec 32} (ok : FlagsAllowed mask flags)
    (legal : old &&& lockMask ≠ flagLockOnfault) : ((old &&& ~~~mask) ||| flags) &&& lockMask ≠ flagLockOnfault := by
  have masked := and_not_eq_zero_iff.mp ok.masked
  rcases ok.lockPair with untouched | ⟨whole, legalNew⟩
  · have eq : ((old &&& ~~~mask) ||| flags) &&& lockMask = old &&& lockMask := by
      ext i mem
      have out := congrArg (·.getLsbD i) untouched
      have bit := masked i mem
      simp [BitVec.getLsbD_eq_getElem mem] at out ⊢
      grind
    rwa [eq]
  have eq : ((old &&& ~~~mask) ||| flags) &&& lockMask = flags &&& lockMask := by
    ext i mem
    have seen := congrArg (·.getLsbD i) whole
    simp [BitVec.getLsbD_eq_getElem mem] at seen ⊢
    grind
  rwa [eq]

variable {edit : KernelVmaEdit}

theorem editEntry_start : (editEntry edit vma).start = vma.start := by
  unfold editEntry
  split <;> rfl

theorem editEntry_stop : (editEntry edit vma).stop = vma.stop := by
  unfold editEntry
  split <;> rfl

theorem editEntry_attachment : (editEntry edit vma).shmAttachment = vma.shmAttachment := by
  unfold editEntry
  split <;> rfl

section
variable [PageGeometry]

/-- What the prepares establish about an edit and the entries it will meet. -/
structure Admissible (edit : KernelVmaEdit) (entries : List KernelVma) : Prop where
  protect : edit.kind = .protect → ∀ vma ∈ entries, vma.start.toNat < edit.stop.toNat → edit.start.toNat < vma.stop.toNat →
      edit.permissions &&& allPermissions &&& ~~~vma.maximumPermissions = 0
  flags : edit.kind = .flags → FlagsAllowed edit.flagsMask edit.flags
  replace : edit.kind = .replace → edit.replacement.valid = true ∧ edit.replacement.start = edit.start ∧ edit.replacement.stop = edit.stop

theorem Admissible.editEntry_sound (admissible : Admissible edit es) (sound : vma.Sound)
    (rewrites : edit.kind = .protect ∨ edit.kind = .flags)
    (ok : edit.kind = .protect → edit.permissions &&& allPermissions &&& ~~~vma.maximumPermissions = 0) : (editEntry edit vma).Sound := by
  unfold editEntry
  split
  next protect =>
    exact { sound with permitted := ok protect }
  rename_i ne
  have flags := admissible.flags (rewrites.resolve_left ne)
  exact { sound with
    flagsKnown := flags.known_flags sound.flagsKnown
    lockKind := flags.lock_flags sound.lockKind }

theorem Admissible.replaced_layout (admissible : Admissible edit es) (laid : Layout mid)
    (mem : ∀ m ∈ mid, edit.start.toNat ≤ m.start.toNat ∧ m.stop.toNat ≤ edit.stop.toNat)
    (pieces : ∀ m ∈ mid, ∃ whole ∈ es, PartOf m whole) : Layout (replaced edit mid) ∧ ∀ r ∈ replaced edit mid,
      edit.start.toNat ≤ r.start.toNat ∧ r.stop.toNat ≤ edit.stop.toNat := by
  have rewrite (rewrites : edit.kind = .protect ∨ edit.kind = .flags) : Layout (mid.map (editEntry edit)) ∧ ∀ r ∈ mid.map (editEntry edit),
          edit.start.toNat ≤ r.start.toNat ∧ r.stop.toNat ≤ edit.stop.toNat := by
    refine ⟨⟨?_, ?_⟩, ?_⟩
    · intro r member
      obtain ⟨m, inMiddle, eq⟩ := mem_map.mp member
      subst eq
      refine admissible.editEntry_sound (laid.sound m inMiddle) rewrites fun protect => ?_
      obtain ⟨whole, inEntries, lo, upper, part⟩ := pieces m inMiddle
      have ne := (laid.sound m inMiddle).nonempty
      have range := mem m inMiddle
      rw [part]
      exact admissible.protect protect whole inEntries (by omega) (by omega)
    · refine pairwise_map.mpr (laid.apart.imp ?_)
      intro a b apart
      rwa [editEntry_stop, editEntry_start]
    · intro r member
      obtain ⟨m, inMiddle, eq⟩ := mem_map.mp member
      subst eq
      rw [editEntry_start, editEntry_stop]
      exact mem m inMiddle
  unfold replaced
  cases kind : edit.kind with
  | protect => exact rewrite (.inl kind)
  | flags => exact rewrite (.inr kind)
  | remove => exact ⟨nil, by simp⟩
  | replace =>
    obtain ⟨valid, start, stop⟩ := admissible.replace kind
    refine ⟨cons_iff.mpr ⟨(valid_iff.mp valid).1, nil, by simp⟩, ?_⟩
    intro r member
    rw [mem_singleton.mp member, start, stop]
    exact ⟨le_rfl, le_rfl⟩

end

/-- The list that the commit of `edit` leaves, up to the merges it still
makes. -/
inductive Rewriting (edit : KernelVmaEdit) : List KernelVma → List KernelVma → Prop where
  | mk {entries first second before middle after rewritten result : List KernelVma}
      (cutStart : Cut edit.start entries first) (cutStop : Cut edit.stop first second)
      (parts : Parts second edit.start edit.stop before middle after)
      (fresh : Parts rewritten edit.start edit.stop before (replaced edit middle) after)
      (layout : Layout rewritten) (joined : Joined rewritten result) :
      Rewriting edit entries result

/-- How an edit changes what an address inside its range shows. -/
def shownAfter (edit : KernelVmaEdit) (address : UInt64) (shown : Option View) : Option View :=
  match edit.kind with
  | .remove => none
  | .replace => some (edit.replacement.view address)
  | .protect => shown.map fun view => { view with permissions := edit.permissions }
  | .flags => shown.map fun view =>
    { view with flags := (view.flags &&& ~~~edit.flagsMask) ||| edit.flags }

theorem viewAt_replaced (seen : edit.kind = .replace → edit.replacement.covers addr = true) :
    viewAt (replaced edit mid) addr = shownAfter edit addr (viewAt mid addr) := by
  unfold replaced shownAfter
  cases kind : edit.kind with
  | remove => rfl
  | replace => rw [viewAt_cons, if_pos (seen kind)]
  | protect =>
    refine viewAt_map (fun _ => editEntry_start) (fun _ => editEntry_stop) fun vma addr => ?_
    rw [editEntry, if_pos kind]
    rfl
  | flags =>
    refine viewAt_map (fun _ => editEntry_start) (fun _ => editEntry_stop) fun vma addr => ?_
    rw [editEntry, if_neg (by rw [kind]; decide)]
    rfl

theorem Rewriting.viewAt (rewriting : Rewriting edit es res) (laid : Layout es)
    (range : edit.kind = .replace → edit.replacement.start = edit.start ∧ edit.replacement.stop = edit.stop)
    (addr : UInt64) : viewAt res addr = if edit.start.toNat ≤ addr.toNat ∧ addr.toNat < edit.stop.toNat then
        shownAfter edit addr (Vma.viewAt es addr)
      else Vma.viewAt es addr := by
  obtain ⟨cutStart, cutStop, parts, new, freshLayout, join⟩ := rewriting
  have eq := (cutStop.viewAt (cutStart.layout laid)).trans (cutStart.viewAt laid)
  rw [join.viewAt freshLayout, ← eq]
  split
  next mem =>
    rw [new.viewAt_inside mem.1 mem.2, parts.viewAt_inside mem.1 mem.2]
    refine viewAt_replaced fun kind => covers_iff.mpr ?_
    rw [(range kind).1, (range kind).2]
    exact mem
  next out =>
    rw [new.viewAt_outside out, parts.viewAt_outside out]

end BoarOS.Vma
