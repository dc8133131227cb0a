import BoarOS.Vma.Commit

namespace BoarOS.Vma
open Data List UInt64 Layout

/-! The prepares: whatever they answer, the set keeps its contents, and a
successful one leaves an edit that is ready. -/

namespace KernelVmaSet
variable {set grown : KernelVmaSet} {w : World} {edit : KernelVmaEdit} {addr start stop : UInt64}

theorem Grown.wellFormed (data : Grown set grown) (wf : WellFormed set) : WellFormed grown :=
  ⟨data.valid wf.valid, data.bounded wf.bounded, data.live.symm ▸ wf.layout⟩

theorem Grown.splitNeeded_eq (data : Grown set grown) (addr : UInt64) : grown.splitNeeded addr = set.splitNeeded addr := by
  rw [data.same]
  rfl

/-- What the reservation of an edit gives: room for both splits and, where
nothing is replaced, for one more entry. -/
structure EditReservation (set : KernelVmaSet) (start stop : UInt64) (replacement : Bool)
    (world : World) (outcome : Status × KernelVmaSet × World) : Prop where
  contents : Grown set outcome.2.1
  shm : outcome.2.2.shm = world.shm
  room : outcome.1 = .ok → set.count + (set.splitNeeded start).toNat + (set.splitNeeded stop).toNat ≤ outcome.2.1.capacity
  gap : outcome.1 = .ok → replacement = true → ¬ Overlaps set.live start stop → set.count < outcome.2.1.capacity
  quiet : set.count + 3 ≤ set.capacity → set.capacity ≤ uint32Max → outcome = (.ok, set, world)

theorem EditReservation.of_entries (required : Nat) (w : World)
    (room : set.count + (set.splitNeeded start).toNat + (set.splitNeeded stop).toNat ≤ required)
    (gap : new = true → ¬ Overlaps set.live start stop → set.count < required) (lt : required ≤ set.count + 3) :
    EditReservation set start stop new w (set.reserveEntries required w) := by
  have res := reserveEntries_spec set required w
  refine ⟨res.contents, res.shm, ?_, ?_, ?_⟩
  · exact fun ok => le_trans room (res.enough ok)
  · exact fun ok replaces apart => lt_of_lt_of_le (gap replaces apart) (res.enough ok)
  · exact fun spare _ => res.quiet (le_trans lt spare)

theorem EditReservation.refused (failed : st ≠ .ok) (full : ¬ (set.count + 3 ≤ set.capacity ∧ set.capacity ≤ uint32Max)) :
    EditReservation set start stop new w (st, set, w) :=
  ⟨Grown.refl _, rfl, fun ok => absurd ok failed, fun ok => absurd ok failed, fun spare le => absurd ⟨spare, le⟩ full⟩

theorem reserveEditCapacity_spec (wf : WellFormed set) (lt : start.toNat < stop.toNat) (new : Bool) (w : World) :
    EditReservation set start stop new w (set.reserveEditCapacity start stop new w) := by
  obtain ⟨answer, overlapping, meaning⟩ := overlaps_spec wf.valid wf.layout lt
  have first := Bool.toNat_le (set.splitNeeded start)
  have snd := Bool.toNat_le (set.splitNeeded stop)
  unfold reserveEditCapacity
  simp only [overlapping]
  split
  · exact .refused (by decide) (by omega)
  cases new with
  | false => exact .of_entries _ _ (by omega) (by simp) (by omega)
  | true =>
    simp only [Bool.not_true, Bool.false_eq_true, if_false]
    cases answer with
    | true =>
      exact .of_entries _ _ (by omega) (fun _ apart => absurd (meaning.mp rfl) apart) (by omega)
    | false =>
      simp only
      split
      · exact .refused (by decide) (by omega)
      split
      · exact .of_entries _ _ (by omega) (fun _ _ => by omega) (by omega)
      · exact .of_entries _ _ (by omega) (fun _ _ => by omega) (by omega)

theorem firstReaching_spec (laid : Layout set.live) (start : UInt64) :
    ∃ pre after, set.live = pre ++ after ∧ set.firstReaching start = pre.length ∧
      (∀ a ∈ pre, a.stop.toNat ≤ start.toNat) ∧ ∀ b ∈ after, start.toNat < b.stop.toNat := by
  obtain ⟨pre, after, split, len, lo, above⟩ := lowerBound_split laid start
  obtain ⟨first, snd, _⟩ := append_iff.mp (split ▸ laid)
  have reaching : ∀ b ∈ after, start.toNat < b.stop.toNat := fun b mem => by
    have := above b mem
    have := (snd.sound b mem).nonempty
    omega
  unfold firstReaching
  rw [← len]
  rcases eq_nil_or_concat pre with none | ⟨init, last, ends⟩
  · subst none
    exact ⟨[], after, split, by simp, by simp, reaching⟩
  rw [concat_eq_append] at ends
  subst ends
  have entry := live_entry_last split
  obtain ⟨_, _, lt⟩ := append_iff.mp first
  have lastStart := lo last (by simp)
  have old : ∀ a ∈ init, a.stop.toNat ≤ start.toNat := fun a mem => by
    have := lt a mem last (by simp)
    omega
  simp only [entry, lt_iff_toNat_lt]
  split
  next contains =>
    refine ⟨init, last :: after, by rw [split, append_assoc]; rfl, by simp, old, ?_⟩
    intro b mem
    rcases mem_cons.mp mem with eq | inAfter
    · exact eq ▸ contains.2
    · exact reaching b inAfter
  rename_i misses
  refine ⟨init ++ [last], after, split, rfl, ?_, reaching⟩
  intro a mem
  rcases mem_append.mp mem with inInitial | eq
  · exact old a inInitial
  rw [mem_singleton.mp eq]
  simp only [length_append, length_singleton] at misses
  omega

theorem deniedLoop_false (allowed : deniedLoop es stop perms remaining i = false) (laid : Layout (segment es i remaining)) :
    ∀ vma ∈ segment es i remaining, vma.start.toNat < stop.toNat → perms &&& allPermissions &&& ~~~vma.maximumPermissions = 0 := by
  induction remaining generalizing i with
  | zero => simp
  | succ remaining ih =>
    rw [segment_cons] at laid ⊢
    obtain ⟨sound, rest, apart⟩ := cons_iff.mp laid
    have ne := sound.nonempty
    unfold deniedLoop at allowed
    split at allowed
    · split at allowed
      · contradiction
      next permitted =>
        intro vma mem pre
        rcases mem_cons.mp mem with eq | inRest
        · rw [eq]
          simpa using permitted
        · exact ih allowed rest vma inRest pre
    rename_i beyond
    rw [lt_iff_toNat_lt] at beyond
    intro vma mem pre
    rcases mem_cons.mp mem with eq | inRest
    · rw [eq] at pre
      contradiction
    · have := apart vma inRest
      omega

theorem flagsAllowed_of (legal : flagsRejected mask flags = false) : FlagsAllowed mask flags := by
  unfold flagsRejected at legal
  simp only [Bool.or_eq_false_iff, Bool.and_eq_false_iff, decide_eq_false_iff_not, Decidable.not_not] at legal
  obtain ⟨⟨old, masked⟩, lockPair⟩ := legal
  exact ⟨old, masked, lockPair⟩

theorem permitted_of {maximum : BitVec 32} (allowed : perms &&& ~~~maximum = 0) : perms &&& allPermissions &&& ~~~maximum = 0 := by
  rw [BitVec.and_assoc, BitVec.and_comm allPermissions, ← BitVec.and_assoc, allowed]
  exact BitVec.zero_and

theorem splitNeeded_boundary (laid : Layout set.live) (inside : i < set.count) :
    set.splitNeeded (set.entries i).stop = false ∧ set.splitNeeded (set.entries i).start = false := by
  obtain ⟨_, _, split, _⟩ := live_at inside
  obtain ⟨_, snd, across⟩ := append_iff.mp (split ▸ laid)
  obtain ⟨sound, _, apart⟩ := cons_iff.mp snd
  have ne := sound.nonempty
  constructor
  all_goals
    rw [← Bool.not_eq_true, splitNeeded_iff laid]
    rintro ⟨vma, mem, _⟩
    rw [split] at mem
    simp only [mem_append, mem_cons] at mem
    rcases mem with inBefore | eq | inAfter
    · have := across vma inBefore (set.entries i) (by simp)
      omega
    · subst eq
      omega
    · have := apart vma inAfter
      omega

section
variable [PageGeometry] {bound : Nat}

theorem Ready.of_grown (ready : Ready set edit bound) (data : Grown set grown) : Ready grown edit bound where
  owner := data.self_eq ▸ ready.owner
  generation := data.generation_eq ▸ ready.generation
  ordered := ready.ordered
  admissible := data.live ▸ ready.admissible
  room := by
    rw [data.count_eq, data.splitNeeded_eq, data.splitNeeded_eq]
    exact ready.room
  gap := by
    rw [data.count_eq, data.live]
    exact ready.gap
  within := le_trans ready.within data.capacity

theorem Ready.widen (ready : Ready set edit bound) (larger : bound ≤ set.capacity) : Ready set edit set.capacity :=
  { ready with
    room := le_trans ready.room larger
    gap := fun kind apart => lt_of_lt_of_le (ready.gap kind apart) larger
    within := le_rfl }

structure Preparation (set : KernelVmaSet) (world : World) (intended : KernelVmaEdit) (outcome : Prepared) : Prop where
  contents : Grown set outcome.2.1
  shm : outcome.2.2.1.shm = world.shm
  ready : outcome.1 = .ok → Ready outcome.2.1 outcome.2.2.2 outcome.2.1.capacity
  written : outcome.1 = .ok → outcome.2.2.2 =
    { intended with set := some set.self, generation := set.generation }

theorem Preparation.refused (failed : st ≠ .ok) : Preparation set w intended (st, set, w, edit) :=
  ⟨Grown.refl _, rfl, fun ok => absurd ok failed, fun ok => absurd ok failed⟩

theorem Preparation.of_reservation (res : EditReservation set intended.start intended.stop new w resv)
    (lt : intended.start.toNat < intended.stop.toNat) (admissible : Admissible intended set.live)
    (replaces : intended.kind = .replace → new = true) : Preparation set w intended (writeEdit intended edit resv) := by
  obtain ⟨st, resv, next⟩ := resv
  have data : Grown set resv := res.contents
  have shm : next.shm = w.shm := res.shm
  cases st with
  | ok =>
    refine ⟨data, shm, fun _ => ⟨rfl, rfl, lt, ?_, ?_, ?_, le_rfl⟩, fun _ => ?_⟩
    · exact data.live ▸ ⟨admissible.protect, admissible.flags, admissible.replace⟩
    · dsimp only [writeEdit]
      rw [data.count_eq, data.splitNeeded_eq, data.splitNeeded_eq]
      exact res.room rfl
    · dsimp only [writeEdit]
      rw [data.live, data.count_eq]
      exact fun kind apart => res.gap rfl (replaces kind) apart
    · rw [← data.self_eq, ← data.generation_eq]
      rfl
  | _ => exact ⟨data, shm, fun ok => by contradiction, fun ok => by contradiction⟩

theorem prepareReplace_spec (wf : WellFormed set) (start stop : UInt64) (new : Option KernelVma) (w : World)
    (edit : KernelVmaEdit) : Preparation set w (replaceEdit start stop new) (set.prepareReplace start stop new w edit) := by
  unfold prepareReplace
  split
  · exact .refused (by decide)
  rename_i ok
  split
  · exact .refused (by decide)
  simp only [Bool.or_eq_true, not_or, decide_eq_true_eq, le_iff_toNat_le, not_le] at ok
  obtain ⟨⟨_, lt⟩, matching⟩ := ok
  refine .of_reservation (reserveEditCapacity_spec wf lt new.isSome w) lt ?_ ?_
  · cases new with
    | none => exact ⟨by simp [replaceEdit], by simp [replaceEdit], by simp [replaceEdit]⟩
    | some vma =>
      refine ⟨by simp [replaceEdit], by simp [replaceEdit], fun _ => ?_⟩
      simpa [replacementRejected, replaceEdit, and_assoc] using matching
  · cases new <;> simp [replaceEdit]

theorem prepareProtect_spec (wf : WellFormed set) (start stop : UInt64) (perms : BitVec 32) (w : World) (edit : KernelVmaEdit) :
    Preparation set w (protectEdit start stop perms) (set.prepareProtect start stop perms w edit) := by
  unfold prepareProtect
  split
  · exact .refused (by decide)
  rename_i ok
  split
  · exact .refused (by decide)
  split
  · exact .refused (by decide)
  rename_i allowed
  split
  · exact .refused (by decide)
  simp only [Bool.or_eq_true, not_or, decide_eq_true_eq, le_iff_toNat_le, not_le] at ok
  refine .of_reservation (reserveEditCapacity_spec wf ok.2 false w) ok.2 ⟨fun _ => ?_, by simp [protectEdit], by simp [protectEdit]⟩
    (by simp [protectEdit])
  obtain ⟨_, _, split, i, lo, _⟩ := firstReaching_spec wf.layout start
  obtain ⟨_, cells, size⟩ := live_parts split
  rw [i, size, Nat.add_sub_cancel_left] at allowed
  have afterLayout := (append_iff.mp (split ▸ wf.layout)).2.1
  intro vma mem lower upper
  rw [split] at mem
  rcases mem_append.mp mem with inBefore | inAfter
  · have := lo vma inBefore
    exact absurd upper (by change ¬ start.toNat < _; omega)
  · exact deniedLoop_false (Bool.not_eq_true _ ▸ allowed) (cells ▸ afterLayout) vma (cells ▸ inAfter) lower

theorem prepareFlags_spec (wf : WellFormed set) (start stop : UInt64) (mask flags : BitVec 32) (w : World) (edit : KernelVmaEdit) :
    Preparation set w (flagsEdit start stop mask flags) (set.prepareFlags start stop mask flags w edit) := by
  unfold prepareFlags
  split
  · exact .refused (by decide)
  rename_i ok
  split
  · exact .refused (by decide)
  split
  · exact .refused (by decide)
  simp only [Bool.or_eq_true, not_or, Bool.not_eq_true, decide_eq_true_eq, le_iff_toNat_le, not_le] at ok
  obtain ⟨⟨_, lt⟩, legal⟩ := ok
  exact .of_reservation (reserveEditCapacity_spec wf lt false w) lt
    ⟨by simp [flagsEdit], fun _ => flagsAllowed_of legal, by simp [flagsEdit]⟩
    (by simp [flagsEdit])

/-- What the walk has established at `cursor` before the entry `index`: it admitted the entries behind, and an edit it
has begun ends before those ahead. `mark` is any property of the ends. -/
structure Walk (set : KernelVmaSet) (mark : UInt64 → Prop) (floor : Nat) (stop : UInt64)
    (permissions : BitVec 32) (index firstSplit : Nat) (cursor : UInt64) (edit : KernelVmaEdit) :
    Prop where
  above : floor ≤ cursor.toNat
  marked : mark cursor
  admitted : ∀ earlier, earlier < index → (set.entries earlier).stop.toNat ≤ floor ∨
    permissions &&& ~~~(set.entries earlier).maximumPermissions = 0
  begun : edit.set ≠ none → Ready set edit set.capacity ∧ edit.kind = .protect ∧
    edit.permissions = permissions ∧ floor ≤ edit.start.toNat ∧ edit.stop.toNat ≤ stop.toNat ∧
    mark edit.start ∧ mark edit.stop
  ahead : edit.set ≠ none → ∀ later, index ≤ later → later < set.count → edit.stop.toNat ≤ (set.entries later).start.toNat
  room : edit.set ≠ none → (set.splitNeeded edit.start).toNat ≤ firstSplit ∧ set.count + firstSplit ≤ set.capacity

section
variable {mark : UInt64 → Prop} {floor i firstSplit : Nat} {perms : BitVec 32}
  {cur fin : UInt64}

theorem Walk.skip (walk : Walk set mark floor stop perms i firstSplit cur edit)
    (allowed : perms &&& ~~~(set.entries i).maximumPermissions = 0) (advances : cur.toNat ≤ fin.toNat)
    (marked : mark fin) : Walk set mark floor stop perms (i + 1) firstSplit fin edit where
  above := le_trans walk.above advances
  marked := marked
  admitted := by
    intro old passed
    by_cases now : old = i
    · exact .inr (now ▸ allowed)
    · exact walk.admitted old (by omega)
  begun := walk.begun
  ahead := fun some later passed => walk.ahead some later (by omega)
  room := walk.room

theorem Walk.extend (walk : Walk set mark floor stop perms i firstSplit cur edit) (laid : Layout set.live) (inside : i < set.count)
    (data : Grown set grown) (allowed : perms &&& ~~~(set.entries i).maximumPermissions = 0) (advances : cur.toNat < fin.toNat)
    (lim : fin.toNat ≤ stop.toNat) (within : fin.toNat ≤ (set.entries i).stop.toNat) (owner : new.set = some grown.self)
    (gen : new.generation = grown.generation) (marked : mark fin) (markedStart : mark new.start) (stopped : new.stop = fin)
    (kind : new.kind = .protect) (granted : new.permissions = perms) (lower : floor ≤ new.start.toNat)
    (started : new.start.toNat ≤ cur.toNat) (split : (set.splitNeeded new.start).toNat ≤ nextSplit)
    (ends : fin = (set.entries i).stop ∨ endSplit = 1) (room : set.count + (nextSplit + endSplit) ≤ grown.capacity) :
    Walk grown mark floor stop perms (i + 1) nextSplit fin new := by
  have skipped := walk.skip allowed (le_of_lt advances) marked
  have later : ∀ later, i + 1 ≤ later → later < set.count → fin.toNat ≤ (set.entries later).start.toNat := fun later passed old =>
    le_trans within (entries_apart laid (by omega) old)
  have splitEnd : (set.splitNeeded fin).toNat ≤ endSplit := by
    rcases ends with whole | _
    · rw [whole, (splitNeeded_boundary laid inside).1]
      exact Nat.zero_le _
    · have := Bool.toNat_le (set.splitNeeded fin)
      omega
  have admissible : Admissible new set.live := by
    refine ⟨fun _ => ?_, by simp [kind], by simp [kind]⟩
    rw [stopped, granted]
    intro vma mem pre after
    obtain ⟨cell, old, eq⟩ := mem_segment.mp mem
    rw [zero_add] at eq
    subst eq
    by_cases passed : cell < i + 1
    · rcases skipped.admitted cell passed with _ | permitted
      · omega
      · exact permitted_of permitted
    · have := later cell (by omega) old
      omega
  refine ⟨skipped.above, marked, ?_, fun _ => ⟨⟨owner, gen, ?_, data.live ▸ admissible,
    ?_, ?_, le_rfl⟩, kind, granted, lower, stopped ▸ lim, markedStart, stopped ▸ marked⟩, ?_,
    fun _ => ⟨?_, ?_⟩⟩
  · rw [data.entries_eq]
    exact skipped.admitted
  · rw [stopped]
    omega
  · rw [data.count_eq, data.splitNeeded_eq, data.splitNeeded_eq, stopped]
    omega
  · exact fun replaces => by rw [kind] at replaces; contradiction
  · intro _
    rw [data.entries_eq, data.count_eq, stopped]
    exact later
  · rw [data.splitNeeded_eq]
    exact split
  · rw [data.count_eq]
    omega

/-- What the walk leaves, also where it stops early: an edit it has begun can be
committed. -/
structure Admission (set : KernelVmaSet) (world : World) (mark : UInt64 → Prop) (floor : Nat)
    (stop : UInt64) (permissions : BitVec 32) (outcome : Prepared) : Prop where
  contents : Grown set outcome.2.1
  shm : outcome.2.2.1.shm = world.shm
  ready : outcome.2.2.2.set ≠ none → Ready outcome.2.1 outcome.2.2.2 outcome.2.1.capacity ∧
    outcome.2.2.2.kind = .protect ∧ outcome.2.2.2.permissions = permissions ∧
    floor ≤ outcome.2.2.2.start.toNat ∧ outcome.2.2.2.stop.toNat ≤ stop.toNat ∧
    mark outcome.2.2.2.start ∧ mark outcome.2.2.2.stop

theorem Walk.stopped (walk : Walk set mark floor stop perms i firstSplit cur edit) :
    Admission set w mark floor stop perms (st, set, w, edit) :=
  ⟨Grown.refl _, rfl, walk.begun⟩

theorem Admission.after {next : World} (data : Grown set grown) (shm : next.shm = w.shm)
    (admission : Admission grown next mark floor stop perms outcome) : Admission set w mark floor stop perms outcome :=
  ⟨data.trans admission.contents, admission.shm.trans shm, admission.ready⟩

section
variable (walk : Walk set mark floor stop perms i firstSplit cur edit)
  (laid : Layout set.live) (inside : i < set.count)
  (allowed : perms &&& ~~~(set.entries i).maximumPermissions = 0)
  (lower : (set.entries i).start.toNat ≤ cur.toNat) (advances : cur.toNat < fin.toNat)
  (lim : fin.toNat ≤ stop.toNat) (marked : mark fin)
  (within : fin.toNat ≤ (set.entries i).stop.toNat)

include walk laid inside allowed lower advances lim marked within

theorem mprotectAdmit_spec (w : World) : ∃ st resv next new nextSplit,
      mprotectAdmit perms (set.entries i) cur fin firstSplit set w edit = (st, resv, next, new, nextSplit) ∧
      Grown set resv ∧ next.shm = w.shm ∧ (st = .ok → Walk resv mark floor stop perms (i + 1) nextSplit fin new) ∧
      (st ≠ .ok → Admission set w mark floor stop perms (st, resv, next, new)) := by
  unfold mprotectAdmit
  split
  · exact ⟨_, _, _, _, _, rfl, Grown.refl _, rfl, by simp, fun _ => walk.stopped⟩
  generalize splitEnd : (if fin < (set.entries i).stop then 1 else 0) = endSplit
  generalize splitStart : (if edit.set = none then if (set.entries i).start < cur then 1 else 0 else firstSplit) = nextSplit
  have ends : fin = (set.entries i).stop ∨ endSplit = 1 := by
    rw [← splitEnd]
    split
    · exact .inr rfl
    next atEnd =>
      rw [lt_iff_toNat_lt] at atEnd
      exact .inl (UInt64.toNat_inj.mp (by omega))
  have beginning (resv : KernelVmaSet) (data : Grown set resv) (none : edit.set = none)
      (room : set.count + (nextSplit + endSplit) ≤ resv.capacity) :
      Walk resv mark floor stop perms (i + 1) nextSplit fin
        { protectEdit cur fin perms with set := some resv.self, generation := resv.generation } := by
    refine walk.extend laid inside data allowed advances lim within rfl rfl marked walk.marked rfl rfl rfl walk.above le_rfl ?_ ends room
    rw [if_pos none] at splitStart
    rw [← splitStart]
    split
    · exact Bool.toNat_le _
    rename_i atStart
    rw [lt_iff_toNat_lt] at atStart
    have eq : cur = (set.entries i).start := UInt64.toNat_inj.mp (by omega)
    change (set.splitNeeded cur).toNat ≤ 0
    rw [eq, (splitNeeded_boundary laid inside).2]
    exact le_rfl
  have continuing (resv : KernelVmaSet) (data : Grown set resv) (some : edit.set ≠ none)
      (room : set.count + (nextSplit + endSplit) ≤ resv.capacity) :
      Walk resv mark floor stop perms (i + 1) nextSplit fin
        { edit with stop := fin } := by
    obtain ⟨ready, kind, granted, lower, _, markedStart, _⟩ := walk.begun some
    have lt := ready.ordered
    have behind := walk.ahead some i le_rfl inside
    rw [if_neg some] at splitStart
    exact walk.extend laid inside data allowed advances lim within
      (data.self_eq ▸ ready.owner) (data.generation_eq ▸ ready.generation) marked
      markedStart rfl kind granted lower (by change edit.start.toNat ≤ _; omega) (splitStart ▸ (walk.room some).1) ends room
  simp only
  split
  · split
    · exact ⟨_, _, _, _, _, rfl, Grown.refl _, rfl, by simp, fun _ => walk.stopped⟩
    have res := reserveEntries_spec set (set.count + (nextSplit + endSplit)) w
    generalize set.reserveEntries (set.count + (nextSplit + endSplit)) w = out at res
    obtain ⟨st, resv, next⟩ := out
    have data : Grown set resv := res.contents
    have shm : next.shm = w.shm := res.shm
    cases st with
    | ok =>
      refine ⟨_, _, _, _, _, rfl, data, shm, fun _ => ?_, by simp⟩
      by_cases none : edit.set = none
      · rw [if_pos none]
        exact beginning resv data none (res.enough rfl)
      · rw [if_neg none]
        exact continuing resv data none (res.enough rfl)
    | _ =>
      refine ⟨_, _, _, _, _, rfl, data, shm, by simp, fun _ => ⟨data, shm, ?_⟩⟩
      exact fun some => (walk.begun some).imp_left fun ready =>
        (ready.of_grown data).widen data.capacity
  next unreserved =>
    simp only [not_or] at unreserved
    have room := (walk.room unreserved.1).2
    rw [if_neg unreserved.1] at splitStart
    exact ⟨_, _, _, _, _, rfl, Grown.refl _, rfl, fun _ => continuing set (Grown.refl _) unreserved.1 (by omega), by simp⟩

end

theorem mprotectLoop_spec (rest : Nat) (laid : Layout set.live) (size : i + rest = set.count) (markedStop : mark stop)
    (markedEntries : ∀ cell, cell < set.count → mark (set.entries cell).stop)
    (walk : Walk set mark floor stop perms i firstSplit cur edit) : Admission set w mark floor stop perms
      (mprotectLoop limits stop perms rest cur i firstSplit data set w edit) := by
  induction rest generalizing set w edit i firstSplit cur data with
  | zero =>
    unfold mprotectLoop
    split
    · exact walk.stopped
    · exact walk.stopped
  | succ rest ih =>
    unfold mprotectLoop
    simp only
    split
    · exact walk.stopped
    rename_i unfinished
    split
    · exact walk.stopped
    rename_i contains
    split
    · exact walk.stopped
    rename_i allowed
    rw [lt_iff_toNat_lt] at unfinished
    simp only [not_or, lt_iff_toNat_lt, le_iff_toNat_le, not_lt] at contains
    rw [Decidable.not_not] at allowed
    generalize reach : (if (set.entries i).stop < stop then (set.entries i).stop else stop) = fin
    have bounds : cur.toNat < fin.toNat ∧ fin.toNat ≤ stop.toNat ∧ fin.toNat ≤ (set.entries i).stop.toNat := by
      rw [← reach]
      split <;> rename_i shorter <;> rw [lt_iff_toNat_lt] at shorter <;> omega
    have marked : mark fin := by
      rw [← reach]
      split
      · exact markedEntries i (by omega)
      · exact markedStop
    split
    · exact ih laid (by omega) markedEntries (walk.skip allowed (by omega) marked)
    split
    · exact walk.stopped
    obtain ⟨st, _, _, _, _, out, contents, shm, goesOn, stops⟩ :=
      mprotectAdmit_spec walk laid (by omega) allowed contains.1 bounds.1 bounds.2.1 marked bounds.2.2 w
    rw [out]
    cases st with
    | ok =>
      exact Admission.after contents shm (ih (contents.live ▸ laid) (by rw [contents.count_eq]; omega)
          (by rwa [contents.count_eq, contents.entries_eq])
          (goesOn rfl))
    | _ => exact stops (by simp)

end

theorem prepareMprotect_spec (limits : KernelMemoryLimits) (wf : WellFormed set) (markedStart : mark start) (markedStop : mark stop)
    (markedEntries : ∀ vma ∈ set.live, mark vma.stop) (perms : BitVec 32) (w : World) (edit : KernelVmaEdit) :
    Admission set w mark start.toNat stop perms (set.prepareMprotect limits start stop perms w edit) := by
  unfold prepareMprotect
  split
  · exact ⟨Grown.refl _, rfl, by simp⟩
  obtain ⟨pre, _, split, i, lo, _⟩ := firstReaching_spec wf.layout start
  obtain ⟨cells, _⟩ := live_parts split
  refine mprotectLoop_spec _ wf.layout (by omega) markedStop (fun cell inside => markedEntries _ (entry_mem inside))
    ⟨le_rfl, markedStart, ?_, by simp, by simp, by simp⟩
  intro old passed
  have mem : set.entries old ∈ segment set.entries 0 pre.length := mem_segment.mpr ⟨old, i ▸ passed, by rw [zero_add]⟩
  rw [← cells] at mem
  exact .inl (lo _ mem)

end
end KernelVmaSet
end BoarOS.Vma
