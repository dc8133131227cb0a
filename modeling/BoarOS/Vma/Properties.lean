import BoarOS.Vma.Machine

namespace BoarOS.Vma
open KernelVmaSet KernelVma Machine

/-! What the callers of `vma.c` rely on, over every run and every valid set. -/

/-- The entries ascend, are accepted and could not be merged, and the three counters are their sums. -/
structure RepresentationInvariant (set : KernelVmaSet) (accepted : KernelVma → Prop) : Prop where
  sorted : set.live.Pairwise fun a b => a.start < b.start
  disjoint : set.live.Pairwise fun a b => a.stop ≤ b.start
  accepted : ∀ vma ∈ set.live, accepted vma
  unmergeable : set.live.IsChain fun left right => left.canMerge right = false
  totalBytes : set.totalBytes = bytesOf (fun _ => true) set.live
  dataBytes : set.dataBytes = bytesOf KernelVma.isData set.live
  lockedBytes : set.lockedBytes = bytesOf (fun vma => vma.flags &&& flagLocked ≠ 0) set.live

theorem RepresentationInvariant.of_canonical {set : KernelVmaSet} {accepted : KernelVma → Prop} (canon : Canonical set)
    (all : ∀ vma ∈ set.live, accepted vma) : RepresentationInvariant set accepted where
  sorted := by
    refine canon.layout.apart.imp_of_mem ?_
    intro a b inA _ apart
    have := (canon.layout.sound a inA).nonempty
    exact UInt64.lt_iff_toNat_lt.mpr (by omega)
  disjoint := canon.layout.apart.imp fun apart => UInt64.le_iff_toNat_le.mpr apart
  accepted := all
  unmergeable := canon.separate
  totalBytes := canon.counted.total
  dataBytes := canon.counted.data
  lockedBytes := canon.counted.locked

section
variable [PageGeometry]

/-- No run traps, and every set it leaves is valid: with all of `vma_valid` when the commands use page-aligned
addresses, and otherwise without the alignment of shared offsets. -/
theorem run_keeps_representation (replies : Nat → HeapStatus) (commands : List Command) :
    ∃ machine, (Machine.initial replies).run commands = .ok machine ∧ ∀ set ∈ machine.sets, RepresentationInvariant set KernelVma.Sound ∧
        ((∀ command ∈ commands, command.Aligned) → RepresentationInvariant set fun vma => vma.valid = true) := by
  obtain ⟨machine, out, sound, aligned⟩ :=
    run_sound (initial_sound replies) commands
  refine ⟨machine, out, fun set member => ?_⟩
  have canon := sound.canonical set member
  refine ⟨.of_canonical canon canon.layout.sound, fun multiples => ?_⟩
  have isAligned := aligned multiples (fun k mem => by contradiction) set member
  exact .of_canonical canon fun vma mem =>
    (isAligned vma mem).valid (canon.layout.sound vma mem)

/-- A shared anonymous object mapped at `[0x1000, 0x3000)` from its start. -/
def sharedMapping : KernelVma :=
  { KernelVma.blank with
    start := 0x1000, stop := 0x3000, permissions := 3, maximumPermissions := 3
    kind := .anonShared, faultPolicy := .anonShared, backing := 1 }

/-- Whether a run leaves an entry that `vma_valid` rejects. -/
def leavesInvalidEntry (commands : List Command) : Bool :=
  match (Machine.initial fun _ => .ok).run commands with
  | .error _ => false
  | .ok machine => machine.entries.any fun vma => !vma.valid

end

theorem unaligned_removal_breaks_vma_valid : @leavesInvalidEntry PageGeometry.riscv
      [.create 1, .call 0 (.insert sharedMapping), .call 0 (.edit (.replace 0x1000 0x1800 none) true)] = true := by
  decide

def mappedSet : KernelVmaSet where
  self := 1
  entries := fun _ => sharedMapping
  allocated := true
  count := 1
  capacity := initialCapacity
  generation := 1
  totalBytes := 0x2000
  dataBytes := 0
  lockedBytes := 0

theorem mappedSet_wellFormed : WellFormed mappedSet := by
  refine ⟨by decide, by decide, Layout.cons_iff.mpr ⟨?_, Layout.nil, by simp⟩⟩
  exact ((@KernelVma.valid_iff PageGeometry.riscv sharedMapping).mp (by decide)).1

def quietWorld : World := ⟨fun _ => .ok, 0, []⟩

def Unchanged (set other : KernelVmaSet) : Prop :=
  other.entries = set.entries ∧ other.count = set.count ∧ other.totalBytes = set.totalBytes ∧
    other.dataBytes = set.dataBytes ∧ other.lockedBytes = set.lockedBytes ∧
    other.generation = set.generation

theorem KernelVmaSet.Grown.unchanged {set grown : KernelVmaSet} (data : Grown set grown) : Unchanged set grown := by
  rw [data.same]
  exact ⟨rfl, rfl, rfl, rfl, rfl, rfl⟩

section
variable [PageGeometry] {set : KernelVmaSet} {w next : World} {vma : KernelVma}

theorem KernelVmaSet.Inserted.address_map (wf : WellFormed set) (new : Inserted set vma w st res next) :
    (st = .ok → ∀ addr, (vma.covers addr = true → viewAt set.live addr = none) ∧ viewAt res.live addr =
        if vma.covers addr then some (vma.view addr) else viewAt set.live addr) ∧
    (st ≠ .ok → viewAt res.live = viewAt set.live) := by
  cases new with
  | refused failed data shm =>
    exact ⟨fun ok => absurd ok failed, fun _ => by rw [data.live]⟩
  | added valid split lo above join resultWell merged self tracks =>
    rename_i pre after
    refine ⟨fun _ addr => ?_, by simp⟩
    have laid := split ▸ wf.layout
    have sound := (KernelVma.valid_iff.mp valid).1
    rw [join.viewAt (laid.insert sound lo above), split, viewAt_append, viewAt_append, viewAt_cons]
    have free : vma.covers addr = true → viewAt pre addr = none ∧ viewAt after addr = none := fun seen => by
      have range := covers_iff.mp seen
      exact ⟨viewAt_below fun a mem => le_trans (lo a mem) range.1, viewAt_above fun b mem => lt_of_lt_of_le range.2 (above b mem)⟩
    refine ⟨fun seen => ?_, ?_⟩
    · rw [(free seen).1, (free seen).2]
      rfl
    split
    next seen =>
      rw [(free seen).1]
      rfl
    · rfl

theorem KernelVmaSet.Commit.address_map (commit : Commit set edit bound w res next) (ready : Ready set edit bound) (wf : WellFormed set)
    (addr : UInt64) : viewAt res.live addr = if edit.start.toNat ≤ addr.toNat ∧ addr.toNat < edit.stop.toNat then
        shownAfter edit addr (viewAt set.live addr)
      else viewAt set.live addr := by
  obtain ⟨_, _, _, _, _, _, _, _, _, rewriting, _⟩ := commit
  exact rewriting.viewAt wf.layout (fun kind => (ready.admissible.replace kind).2) addr

theorem KernelVmaSet.Remapped.address_map (remapped : Remapped set edit bound w res next rem gone between) (wf : WellFormed set)
    (addr : UInt64) : viewAt res.live addr = if edit.replacement.covers addr then some (edit.replacement.view addr)
      else if edit.start.toNat ≤ addr.toNat ∧ addr.toNat < edit.stop.toNat then none
      else viewAt set.live addr := by
  obtain ⟨removalEdit, commit, _, _, _, new, _⟩ := remapped
  obtain ⟨_, _, _, _, _, _, _, _, _, rewriting, canon, _⟩ := commit
  have kind : rem.kind = .remove := by rw [removalEdit]; rfl
  have range : rem.start = edit.start ∧ rem.stop = edit.stop := by
    rw [removalEdit]
    exact ⟨rfl, rfl⟩
  rw [((new.address_map canon.toWellFormed).1 rfl addr).2, rewriting.viewAt wf.layout (by simp [kind]), range.1, range.2, shownAfter, kind]

/-- Edits, insertion and remap change the address map where they say and nowhere
else, and lookup reads it. -/
theorem calls_refine_address_map (wellFormed : WellFormed set) :
    (∀ (request : Request) (world : World) (edit : KernelVmaEdit) (outcome : Prepared),
      request.prepare set world edit = outcome → request.begun outcome = true →
      request.Asked outcome.2.2.2 ∧ ∃ result next, outcome.2.1.commitEdit outcome.2.2.2 outcome.2.2.1 = .ok (.ok, result, next) ∧
        ∀ address, viewAt result.live address = if outcome.2.2.2.start.toNat ≤ address.toNat ∧ address.toNat < outcome.2.2.2.stop.toNat then
            shownAfter outcome.2.2.2 address (viewAt set.live address)
          else viewAt set.live address) ∧
    (∀ (vma : KernelVma) (world : World), ∃ status result next, set.insert vma world = .ok (status, result, next) ∧
      (status = .ok → ∀ address, (vma.covers address = true → viewAt set.live address = none) ∧
        viewAt result.live address = if vma.covers address then some (vma.view address) else viewAt set.live address) ∧
      (status ≠ .ok → viewAt result.live = viewAt set.live)) ∧
    (∀ (start stop : UInt64) (replacement : KernelVma) (world : World) (reserved : KernelVmaSet)
        (next : World) (edit : Option KernelVmaRemap),
      set.prepareRemap start stop replacement world = (.ok, reserved, next, edit) →
      ∃ remap removal removed between result last, edit = some remap ∧
        removal.kind = .remove ∧ removal.start = start ∧ removal.stop = stop ∧
        reserved.commitEdit removal next = .ok (.ok, removed, between) ∧
        removed.insert replacement between = .ok (.ok, result, last) ∧
        reserved.commitRemap remap next = .ok (.ok, result, last) ∧
        ∀ address, viewAt result.live address = if replacement.covers address then some (replacement.view address)
          else if start.toNat ≤ address.toNat ∧ address.toNat < stop.toNat then none
          else viewAt set.live address) ∧
    (∀ address, (viewAt set.live address = none ∧ set.lookup address = (.notFound, none)) ∨
      ∃ vma ∈ set.live, vma.covers address = true ∧ set.lookup address = (.ok, some vma) ∧
        viewAt set.live address = some (vma.view address)) := by
  refine ⟨?_, ?_, ?_, lookup_spec wellFormed.valid wellFormed.layout⟩
  · intro request world edit outcome eq begun
    subst eq
    have prep := request.prepare_spec wellFormed world edit
    have reservedWell := prep.contents.wellFormed wellFormed
    obtain ⟨result, next, commit⟩ := (prep.ready begun).commit reservedWell (request.prepare set world edit).2.2.1
    have map := commit.address_map (prep.ready begun) reservedWell
    obtain ⟨_, _, _, _, _, _, _, outcome, _⟩ := commit
    rw [prep.contents.live] at map
    exact ⟨prep.asked begun, result, next, outcome, map⟩
  · intro vma world
    obtain ⟨status, result, next, outcome, new⟩ := insert_spec wellFormed vma world
    exact ⟨status, result, next, outcome, new.address_map wellFormed⟩
  intro start stop replacement world reserved next edit prep
  obtain ⟨_, _, next, _, outcome, data, _, ready⟩ :=
    prepareRemap_spec wellFormed start stop replacement world
  rw [prep] at outcome
  cases outcome
  obtain ⟨remap, written, readyRemap, sameStart, sameStop, sameReplacement⟩ := ready rfl
  have reservedWell := data.wellFormed wellFormed
  obtain ⟨result, last, removal, removed, between, remapped⟩ := readyRemap.commit reservedWell next
  refine ⟨remap, removal, removed, between, result, last, written, ?_⟩
  have map := remapped.address_map reservedWell
  obtain ⟨removalEdit, commit, _, _, insertion, _, remapOutcome, _⟩ := remapped
  obtain ⟨_, _, _, _, _, _, _, removalOutcome, _⟩ := commit
  rw [sameStart, sameStop] at removalEdit
  rw [sameReplacement] at insertion
  rw [sameStart, sameStop, sameReplacement, data.live] at map
  exact ⟨by rw [removalEdit]; rfl, by rw [removalEdit]; rfl, by rw [removalEdit]; rfl, removalOutcome, insertion, remapOutcome, map⟩

end

theorem calls_refine_address_map_mapped : ∃ result next, @commitEdit PageGeometry.riscv mappedSet
        { replaceEdit 0x1000 0x2000 none with set := some 1, generation := 1 } quietWorld = .ok (.ok, result, next) ∧
      viewAt result.live 0x1000 = none ∧
      viewAt result.live 0x2000 = some (sharedMapping.view 0x2000) := by
  obtain ⟨_, result, next, out, map⟩ :=
    (@calls_refine_address_map PageGeometry.riscv mappedSet mappedSet_wellFormed).1
      (.replace 0x1000 0x2000 none) quietWorld emptyEdit _ rfl (by decide)
  exact ⟨result, next, out, map 0x1000, map 0x2000⟩

section
variable [PageGeometry] {set : KernelVmaSet} {w next : World}

/-- Further prepares on the same set, whatever they ask for and answer. -/
inductive Interim : KernelVmaSet → KernelVmaSet → Prop where
  | refl (set : KernelVmaSet) : Interim set set
  | prepare {set later : KernelVmaSet} (request : Request) (world : World) (edit : KernelVmaEdit)
      (rest : Interim (request.prepare set world edit).2.1 later) : Interim set later
  | prepareRemap {set later : KernelVmaSet} (start stop : UInt64) (replacement : KernelVma)
      (world : World) (rest : Interim (set.prepareRemap start stop replacement world).2.1 later) :
      Interim set later

theorem Interim.grown (interim : Interim set later) (wf : WellFormed set) : Grown set later := by
  induction interim with
  | refl => exact Grown.refl _
  | prepare req w edit rest ih =>
    have data := (req.prepare_spec wf w edit).contents
    exact data.trans (ih (data.wellFormed wf))
  | prepareRemap start stop new w rest ih =>
    obtain ⟨_, _, _, _, out, data, _⟩ := prepareRemap_spec wf start stop new w
    rw [out] at ih
    exact data.trans (ih (data.wellFormed wf))

/-- After a prepare that left an edit, and any further prepares, the commit succeeds within the reserved capacity; no
prepare changes the set. -/
theorem prepared_edits_commit (wellFormed : WellFormed set) :
    (∀ (request : Request) (world : World) (edit : KernelVmaEdit) (outcome : Prepared), request.prepare set world edit = outcome →
      Unchanged set outcome.2.1 ∧
      (request.begun outcome = true → ∀ later, Interim outcome.2.1 later → ∀ now : World,
        ∃ result next, Commit later outcome.2.2.2 outcome.2.1.capacity now result next)) ∧
    (∀ (start stop : UInt64) (replacement : KernelVma) (world : World) (status : Status)
        (reserved : KernelVmaSet) (between : World) (edit : Option KernelVmaRemap),
      set.prepareRemap start stop replacement world = (status, reserved, between, edit) →
      Unchanged set reserved ∧
      (status = .ok → ∃ remap, edit = some remap ∧ ∀ later, Interim reserved later → ∀ now : World, ∃ result next removal removed middle,
          Remapped later remap reserved.capacity now result next removal removed middle)) := by
  refine ⟨?_, ?_⟩
  · intro request world edit outcome eq
    subst eq
    have prep := request.prepare_spec wellFormed world edit
    refine ⟨prep.contents.unchanged, fun begun later interim now => ?_⟩
    have reservedWell := prep.contents.wellFormed wellFormed
    have data := interim.grown reservedWell
    exact ((prep.ready begun).of_grown data).commit (data.wellFormed reservedWell) now
  intro start stop replacement world status reserved between edit prep
  obtain ⟨_, _, _, _, outcome, data, _, ready⟩ :=
    prepareRemap_spec wellFormed start stop replacement world
  rw [prep] at outcome
  cases outcome
  refine ⟨data.unchanged, fun ok => ?_⟩
  obtain ⟨remap, written, readyRemap, _⟩ := ready ok
  refine ⟨remap, written, fun later interim now => ?_⟩
  have reservedWell := data.wellFormed wellFormed
  have grown := interim.grown reservedWell
  exact (readyRemap.of_grown grown).commit (grown.wellFormed reservedWell) now

end

theorem prepared_edits_commit_mapped : ∃ result next, @Commit PageGeometry.riscv mappedSet
        { protectEdit 0x1000 0x2000 1 with set := some 1, generation := 1 } initialCapacity
        quietWorld result next :=
  ((@prepared_edits_commit PageGeometry.riscv mappedSet mappedSet_wellFormed).1
    (.protect 0x1000 0x2000 1) quietWorld emptyEdit _ rfl).2 (by decide) mappedSet
    (@Interim.refl PageGeometry.riscv mappedSet) quietWorld

section
variable [PageGeometry]

/-- For every attachment the opens exceed the closes by the entries that hold it, no close is one too many, and SysV
entries are not merged. -/
theorem run_tracks_attachments (replies : Nat → HeapStatus) (commands : List Command) :
    ∃ machine, (Machine.initial replies).run commands = .ok machine ∧ (∀ attachment, attachment ≠ 0 →
        machine.world.shm.count (.attachmentOpen attachment) =
          machine.world.shm.count (.attachmentClose attachment) + attached attachment machine.entries) ∧
      (∀ earlier, earlier <+: machine.world.shm → ∀ attachment,
        earlier.count (.attachmentClose attachment) ≤ earlier.count (.attachmentOpen attachment)) ∧
      (∀ left right : KernelVma, left.kind = .sysvShm ∨ right.kind = .sysvShm → left.canMerge right = false) := by
  obtain ⟨machine, out, sound, _⟩ :=
    run_sound (initial_sound replies) commands
  refine ⟨machine, out, sound.tracks.balance, sound.tracks.prefixes, ?_⟩
  intro left right sysv
  rw [← Bool.not_eq_true, canMerge_iff]
  intro joins
  rcases sysv with kind | kind
  · exact joins.notSysv kind
  · exact joins.notSysv (joins.kind.trans kind)

end
end BoarOS.Vma
