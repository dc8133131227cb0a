import BoarOS.Vma.Prepare

namespace BoarOS.Vma
open Data

/-! The other calls on a set: insertion, remap, trimming, unlocking and the life
of a set from `create` or `fork` to `destroy`. -/

namespace KernelVmaSet
variable {set other : KernelVmaSet} {w : World} {vma : KernelVma} {start stop addr : UInt64}

section
variable [PageGeometry]

/-- `kernel_vma_set_insert` refuses and keeps the contents, or adds the
descriptor in its place. -/
inductive Inserted (set : KernelVmaSet) (vma : KernelVma) (world : World) : Status → KernelVmaSet → World → Prop where
  | refused {status : Status} {grown : KernelVmaSet} {next : World} (failed : status ≠ .ok)
      (contents : Grown set grown) (shm : next.shm = world.shm) :
      Inserted set vma world status grown next
  | added {before after : List KernelVma} {result : KernelVmaSet} {next : World}
      (valid : vma.valid = true) (split : set.live = before ++ after)
      (below : ∀ a ∈ before, a.stop.toNat ≤ vma.start.toNat)
      (above : ∀ b ∈ after, vma.stop.toNat ≤ b.start.toNat)
      (joined : Joined (before ++ vma :: after) result.live) (wellFormed : WellFormed result)
      (canonical : Separate set.live → Canonical result)
      (self : result.self = set.self)
      (tracks : ∀ others, Tracks (set.live ++ others) world.shm → Tracks (result.live ++ others) next.shm) :
      Inserted set vma world .ok result next

theorem insert_spec (wf : WellFormed set) (vma : KernelVma) (w : World) :
    ∃ st res next, set.insert vma w = .ok (st, res, next) ∧ Inserted set vma w st res next := by
  unfold insert
  split
  · exact ⟨_, _, _, rfl, .refused (by decide) (Grown.refl _) rfl⟩
  rename_i accepted
  split
  · exact ⟨_, _, _, rfl, .refused (by decide) (Grown.refl _) rfl⟩
  simp only [wf.valid, Bool.not_true, Bool.false_or, Bool.not_eq_true', Bool.not_eq_false] at accepted
  have sound := (KernelVma.valid_iff.mp accepted).1
  have laid := wf.layout
  have insertion := insertEntry_spec laid sound w
  generalize set.insertEntry vma w = out at insertion
  obtain ⟨st, new, _⟩ := out
  have tracks := insertion.tracks laid sound
  cases insertion with
  | refused failed data shm cause =>
    cases st with
    | ok => exact absurd rfl failed
    | _ => exact ⟨_, _, _, rfl, .refused failed data shm⟩
  | extended split lo above detached frame n join separate =>
    have fits := valid_count wf.valid
    have cap := frame.capacity_eq
    obtain ⟨cnt, recount, countedWell, canon, live, self, _⟩ := wf.recount frame
      (join.layout ((split ▸ laid).insert sound lo above)) (by omega)
    simp only [recount]
    exact ⟨_, _, _, rfl, .added accepted split lo above (live ▸ join)
      countedWell.nextGeneration (fun merged => (canon (separate merged)).nextGeneration)
      self (live ▸ tracks)⟩
  | placed split lo above data frame n room shm quiet live separate =>
    have insertedLayout : Layout new.live := live ▸ (split ▸ laid).insert sound lo above
    obtain ⟨_, recount, countedWell, canon, eq, self, _⟩ := (data.wellFormed wf).recount frame insertedLayout room
    simp only [recount]
    exact ⟨_, _, _, rfl, .added accepted split lo above (eq.trans live ▸ .refl _)
      countedWell.nextGeneration (fun merged => (canon (separate merged)).nextGeneration)
      (self.trans data.self_eq) (eq ▸ tracks)⟩

theorem insert_ok (wf : WellFormed set) (valid : vma.valid = true) (fresh : set.generation ≠ uint64Max.toNat)
    (w : World) (split : set.live = pre ++ after) (lo : ∀ a ∈ pre, a.stop.toNat ≤ vma.start.toNat)
    (above : ∀ b ∈ after, vma.stop.toNat ≤ b.start.toNat) (room : set.count < set.capacity) :
    ∃ res next, set.insert vma w = .ok (.ok, res, next) ∧ Inserted set vma w .ok res next ∧ next.requests = w.requests ∧
      res.count ≤ set.count + 1 := by
  have sound := (KernelVma.valid_iff.mp valid).1
  have laid := wf.layout
  obtain ⟨new, next, out, inPlace, _, join, separate⟩ := insertEntry_ok laid sound w split lo above room wf.bounded
  have cap := inPlace.frame.capacity_eq
  obtain ⟨cnt, recount, countedWell, canon, live, self, _⟩ := wf.recount inPlace.frame
    (join.layout ((split ▸ laid).insert sound lo above)) (by omega)
  refine ⟨cnt.nextGeneration, next, ?_, .added valid split lo above (live ▸ join)
    countedWell.nextGeneration (fun merged => (canon (separate merged)).nextGeneration)
    self (live ▸ inPlace.tracks), inPlace.requests, ?_⟩
  swap
  · have eq : cnt.nextGeneration.count = new.count := by
      rw [← live_length, ← live_length]
      exact congrArg List.length live
    omega
  unfold insert
  simp only [wf.valid, valid, Bool.not_true, Bool.or_false, Bool.false_eq_true, if_false, if_neg fresh, out, recount]

structure ReadyRemap (set : KernelVmaSet) (edit : KernelVmaRemap) (bound : Nat) : Prop where
  owner : edit.set = set.self
  generation : edit.generation = set.generation
  fresh : set.generation + 2 ≤ uint64Max.toNat
  ordered : edit.start.toNat < edit.stop.toNat
  valid : edit.replacement.valid = true
  free : ∀ address : UInt64, edit.replacement.start.toNat ≤ address.toNat → address.toNat < edit.replacement.stop.toNat →
    ¬ (edit.start.toNat ≤ address.toNat ∧ address.toNat < edit.stop.toNat) →
    viewAt set.live address = none
  room : set.count + 3 ≤ bound
  within : bound ≤ set.capacity

theorem ReadyRemap.of_grown (ready : ReadyRemap set edit bound) (data : Grown set other) : ReadyRemap other edit bound where
  owner := data.self_eq ▸ ready.owner
  generation := data.generation_eq ▸ ready.generation
  fresh := data.generation_eq ▸ ready.fresh
  ordered := ready.ordered
  valid := ready.valid
  free := data.live ▸ ready.free
  room := data.count_eq ▸ ready.room
  within := le_trans ready.within data.capacity

theorem prepareRemap_spec (wf : WellFormed set) (start stop : UInt64) (new : KernelVma) (w : World) :
    ∃ st resv next edit, set.prepareRemap start stop new w = (st, resv, next, edit) ∧ Grown set resv ∧ next.shm = w.shm ∧
      (st = .ok → ∃ remap, edit = some remap ∧ ReadyRemap resv remap resv.capacity ∧
        remap.start = start ∧ remap.stop = stop ∧ remap.replacement = new) := by
  unfold prepareRemap
  split
  · exact ⟨_, _, _, _, rfl, Grown.refl _, rfl, by simp⟩
  rename_i accepted
  simp only [Bool.or_eq_true, not_or, Bool.not_eq_true', decide_eq_true_eq,
    Bool.not_eq_false, UInt64.le_iff_toNat_le, not_le, not_lt] at accepted
  obtain ⟨⟨⟨_, valid⟩, lt⟩, _⟩ := accepted
  generalize checkpoint : (if new.start = start then stop else new.start) = checkStart
  simp only
  split
  · exact ⟨_, _, _, _, rfl, Grown.refl _, rfl, by simp⟩
  rename_i unmapped
  split
  · exact ⟨_, _, _, _, rfl, Grown.refl _, rfl, by simp⟩
  have res := reserveEntries_spec set (set.count + 3) w
  generalize set.reserveEntries (set.count + 3) w = out at res
  obtain ⟨st, resv, next⟩ := out
  have data : Grown set resv := res.contents
  have shm : next.shm = w.shm := res.shm
  cases st with
  | ok =>
    refine ⟨_, _, _, _, rfl, data, shm, fun _ => ⟨_, rfl, ?_, rfl, rfl, rfl⟩⟩
    have spare : set.count + 3 ≤ resv.capacity := res.enough rfl
    refine ⟨rfl, rfl, ?_, lt, valid, ?_, ?_, le_rfl⟩
    · rw [data.generation_eq]
      have : 2 ≤ uint64Max.toNat := by decide
      omega
    · rw [data.live]
      intro addr lo upper outside
      have reached : checkStart.toNat ≤ addr.toNat := by
        rw [← checkpoint]
        split
        next eq =>
          rw [eq] at lo
          change ¬ (start.toNat ≤ _ ∧ _ < stop.toNat) at outside
          omega
        · exact lo
      have ascending : checkStart.toNat < new.stop.toNat := lt_of_le_of_lt reached upper
      obtain ⟨_, overlapping, meaning⟩ := overlaps_spec wf.valid wf.layout ascending
      refine viewAt_of_apart (fun overlaps => unmapped ?_) reached upper
      rw [overlapping, meaning.mpr overlaps]
      exact ⟨UInt64.lt_iff_toNat_lt.mpr ascending, by simp⟩
    · rw [data.count_eq]
      exact spare
  | _ => exact ⟨_, _, _, _, rfl, data, shm, by simp⟩

theorem prepareReplace_quiet (wf : WellFormed set) (lt : start.toNat < stop.toNat) (new : set.generation ≠ uint64Max.toNat)
    (room : set.count + 3 ≤ set.capacity) (w : World) (edit : KernelVmaEdit) : set.prepareReplace start stop none w edit = (.ok, set, w,
      { replaceEdit start stop none with set := some set.self, generation := set.generation }) := by
  have ok : ¬ (!set.valid || decide (stop ≤ start) || replacementRejected start stop none) = true := by
    rw [wf.valid]
    simpa [replacementRejected, UInt64.lt_iff_toNat_lt] using lt
  unfold prepareReplace
  rw [if_neg ok, if_neg new]
  have quiet := (reserveEditCapacity_spec wf lt false w).quiet room wf.bounded
  rw [show (none : Option KernelVma).isSome = false from rfl, quiet]
  rfl

/-- A remap commits as the removal of the source and the insertion of the
replacement. -/
structure Remapped (set : KernelVmaSet) (edit : KernelVmaRemap) (bound : Nat) (world : World)
    (result : KernelVmaSet) (next : World) (removal : KernelVmaEdit) (removed : KernelVmaSet)
    (between : World) : Prop where
  written : removal = { replaceEdit edit.start edit.stop none with
    set := some set.self, generation := set.generation }
  commit : Commit set removal bound world removed between
  removedFits : removed.count < bound
  resultFits : result.count ≤ bound
  insertion : removed.insert edit.replacement between = .ok (.ok, result, next)
  inserted : Inserted removed edit.replacement between .ok result next
  outcome : set.commitRemap edit world = .ok (.ok, result, next)
  requests : next.requests = world.requests

theorem ReadyRemap.commit (ready : ReadyRemap set edit bound) (wf : WellFormed set) (w : World) :
    ∃ res next rem gone between, Remapped set edit bound w res next rem gone between := by
  have fresh := ready.fresh
  have prep := prepareReplace_quiet wf ready.ordered (by omega) (le_trans ready.room ready.within) w emptyEdit
  have preparation := prepareReplace_spec wf edit.start edit.stop none w emptyEdit
  rw [prep] at preparation
  generalize removalEdit : ({ replaceEdit edit.start edit.stop none with
    set := some set.self, generation := set.generation } : KernelVmaEdit) = rem at *
  have readyRemoval : Ready set rem bound :=
    { preparation.ready rfl with
      room := by
        have := Bool.toNat_le (set.splitNeeded rem.start)
        have := Bool.toNat_le (set.splitNeeded rem.stop)
        have := ready.room
        omega
      gap := fun _ _ => by have := ready.room; omega
      within := ready.within }
  obtain ⟨gone, between, commit⟩ := readyRemoval.commit wf w
  have stages := commit
  obtain ⟨_, _, _, _, _, _, _, out, reqs, rewriting, canon, _, _, n, _⟩ := stages
  have kind : rem.kind = .remove := by rw [← removalEdit]; rfl
  have range : rem.start = edit.start ∧ rem.stop = edit.stop := by
    rw [← removalEdit]
    exact ⟨rfl, rfl⟩
  have unmapped : ∀ addr : UInt64, edit.replacement.start.toNat ≤ addr.toNat →
      addr.toNat < edit.replacement.stop.toNat → viewAt gone.live addr = none := by
    intro addr lower upper
    rw [rewriting.viewAt wf.layout (by simp [kind]), range.1, range.2]
    split
    · rw [shownAfter, kind]
    next outside =>
      exact ready.free addr lower upper outside
  obtain ⟨_, _, split, lo, above⟩ := canon.layout.gap (KernelVma.valid_iff.mp ready.valid).1.nonempty unmapped
  have spare := ready.room
  have larger := n (by simp [kind])
  have within := ready.within
  obtain ⟨res, next, insertion, new, quiet, _⟩ := insert_ok canon.toWellFormed ready.valid (by omega) between split lo above (by omega)
  refine ⟨res, next, rem, gone, between, removalEdit.symm, commit, by omega, by omega, insertion, new, ?_, quiet.trans reqs⟩
  unfold commitRemap
  rw [if_neg (by simp [ready.owner, ready.generation]), prep]
  simp only [out, insertion]

end
end KernelVmaSet
end BoarOS.Vma
