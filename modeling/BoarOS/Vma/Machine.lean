import BoarOS.Vma.Alignment

namespace BoarOS.Vma
open List
open KernelVmaSet

/-! Any number of sets under any sequence of calls.

A prepare is followed by its commit when the caller asks for it and the prepare
allows it; either may be refused. A run stops only at a trap.
-/

structure Machine where
  sets : List KernelVmaSet
  world : World

namespace Machine

/-- Before the first call; the heap may answer each request as it likes. -/
def initial (replies : Nat → HeapStatus) : Machine := ⟨[], ⟨replies, 0, []⟩⟩
def entries (machine : Machine) : List KernelVma := machine.sets.flatMap KernelVmaSet.live

end Machine

structure Machine.Sound (machine : Machine) : Prop where
  canonical : ∀ set ∈ machine.sets, Canonical set
  tracks : Tracks machine.entries machine.world.shm

variable {set result res : KernelVmaSet} {world next : World} {sets : List KernelVmaSet}

theorem Machine.initial_sound (replies : Nat → HeapStatus) : (Machine.initial replies).Sound := ⟨by simp [Machine.initial], Tracks.nil⟩

theorem Machine.Sound.add (sound : Machine.Sound ⟨sets, world⟩) (canon : Canonical res)
    (tracks : ∀ rest, Tracks rest world.shm → Tracks (res.live ++ rest) next.shm) : Machine.Sound ⟨sets ++ [res], next⟩ := by
  refine ⟨?_, ?_⟩
  · intro member mem
    rcases mem_append.mp mem with inSets | eq
    · exact sound.canonical member inSets
    · exact mem_singleton.mp eq ▸ canon
  · refine (tracks _ sound.tracks).congr fun att _ => ?_
    simp only [Machine.entries, flatMap_append, flatMap_cons, flatMap_nil, append_nil, attached_append]
    omega

theorem position (got : sets[i]? = some set) : ∃ pre after, sets = pre ++ set :: after ∧ (∀ k, sets.set i k = pre ++ k :: after) ∧
      sets.eraseIdx i = pre ++ after := by
  obtain ⟨mem, eq⟩ := List.getElem?_eq_some_iff.mp got
  refine ⟨sets.take i, sets.drop (i + 1), ?_, fun k => ?_, ?_⟩
  · rw [← eq, ← List.drop_eq_getElem_cons, take_append_drop]
  · rw [set_eq_take_append_cons_drop, if_pos mem]
  · exact eraseIdx_eq_take_drop_succ ..

section
variable [PageGeometry]

inductive Request where
  | replace (start stop : UInt64) (replacement : Option KernelVma)
  | protect (start stop : UInt64) (permissions : BitVec 32)
  | mprotect (limits : KernelMemoryLimits) (start stop : UInt64) (permissions : BitVec 32)
  | flags (start stop : UInt64) (mask flags : BitVec 32)

namespace Request

def prepare (request : Request) (set : KernelVmaSet) (world : World) (edit : KernelVmaEdit) : Prepared :=
  match request with
  | replace start stop replacement => set.prepareReplace start stop replacement world edit
  | protect start stop permissions => set.prepareProtect start stop permissions world edit
  | mprotect limits start stop permissions =>
    set.prepareMprotect limits start stop permissions world edit
  | flags start stop mask bits => set.prepareFlags start stop mask bits world edit

/-- Whether there is something to commit: the prepare succeeded, or
`prepare_mprotect` has begun an edit, whatever it returned. -/
def begun (request : Request) (outcome : Prepared) : Bool :=
  match request with
  | mprotect .. => outcome.2.2.2.set.isSome
  | _ => outcome.1 = .ok

def Aligned : Request → Prop
  | replace start stop replacement =>
    PageMultiple start ∧ PageMultiple stop ∧ ∀ vma ∈ replacement, vma.Aligned
  | protect start stop _ => PageMultiple start ∧ PageMultiple stop
  | mprotect _ start stop _ => PageMultiple start ∧ PageMultiple stop
  | flags start stop _ _ => PageMultiple start ∧ PageMultiple stop

/-- The edit says what was asked for. `prepare_mprotect` may leave out parts at
either end. -/
def Asked : Request → KernelVmaEdit → Prop
  | replace start stop none, edit =>
    edit.kind = .remove ∧ edit.start = start ∧ edit.stop = stop
  | replace start stop (some vma), edit =>
    edit.kind = .replace ∧ edit.start = start ∧ edit.stop = stop ∧ edit.replacement = vma
  | protect start stop permissions, edit =>
    edit.kind = .protect ∧ edit.start = start ∧ edit.stop = stop ∧ edit.permissions = permissions
  | mprotect _ start stop permissions, edit =>
    edit.kind = .protect ∧ edit.permissions = permissions ∧ start.toNat ≤ edit.start.toNat ∧ edit.stop.toNat ≤ stop.toNat
  | flags start stop mask bits, edit =>
    edit.kind = .flags ∧ edit.start = start ∧ edit.stop = stop ∧ edit.flagsMask = mask ∧ edit.flags = bits

end Request

structure RequestPrepared (request : Request) (set : KernelVmaSet) (world : World) (outcome : Prepared) : Prop where
  contents : Grown set outcome.2.1
  shm : outcome.2.2.1.shm = world.shm
  ready : request.begun outcome = true → Ready outcome.2.1 outcome.2.2.2 outcome.2.1.capacity
  asked : request.begun outcome = true → request.Asked outcome.2.2.2
  aligned : request.begun outcome = true → request.Aligned → AllAligned set.live →
    PageMultiple outcome.2.2.2.start ∧ PageMultiple outcome.2.2.2.stop ∧ (outcome.2.2.2.kind = .replace → outcome.2.2.2.replacement.Aligned)

theorem RequestPrepared.of_preparation (preparation : Preparation set world intended outcome)
    (begun : req.begun outcome = decide (outcome.1 = .ok))
    (asked : ∀ owner gen, req.Asked { intended with set := owner, generation := gen })
    (aligned : req.Aligned → PageMultiple intended.start ∧ PageMultiple intended.stop ∧
      (intended.kind = .replace → intended.replacement.Aligned)) :
    RequestPrepared req set world outcome := by
  refine ⟨preparation.contents, preparation.shm, ?_, ?_, ?_⟩
  · intro ok
    rw [begun, decide_eq_true_eq] at ok
    exact preparation.ready ok
  · intro ok
    rw [begun, decide_eq_true_eq] at ok
    rw [preparation.written ok]
    exact asked _ _
  · intro ok multiples _
    rw [begun, decide_eq_true_eq] at ok
    rw [preparation.written ok]
    exact aligned multiples

theorem Request.prepare_spec (req : Request) (wf : WellFormed set) (world : World) (edit : KernelVmaEdit) :
    RequestPrepared req set world (req.prepare set world edit) := by
  cases req with
  | replace start stop new =>
    refine .of_preparation (prepareReplace_spec wf start stop new world edit) rfl
      (by cases new <;> exact fun _ _ => by simp [Asked, replaceEdit]) ?_
    rintro ⟨startMultiple, stopMultiple, aligned⟩
    refine ⟨startMultiple, stopMultiple, ?_⟩
    cases new with
    | none => simp [replaceEdit]
    | some vma => exact fun _ => aligned vma rfl
  | protect start stop perms =>
    exact .of_preparation (prepareProtect_spec wf start stop perms world edit) rfl
      (fun _ _ => ⟨rfl, rfl, rfl, rfl⟩) fun multiples => ⟨multiples.1, multiples.2, by simp [protectEdit]⟩
  | flags start stop mask bits =>
    exact .of_preparation (prepareFlags_spec wf start stop mask bits world edit) rfl
      (fun _ _ => ⟨rfl, rfl, rfl, rfl, rfl⟩) fun multiples => ⟨multiples.1, multiples.2, by simp [flagsEdit]⟩
  | mprotect limits start stop perms =>
    have admission (mark : UInt64 → Prop) (markedStart : mark start) (markedStop : mark stop)
        (markedEntries : ∀ vma ∈ set.live, mark vma.stop) :=
      prepareMprotect_spec limits wf markedStart markedStop markedEntries perms world edit
    have plain := admission (fun _ => True) trivial trivial fun _ _ => trivial
    refine ⟨plain.contents, plain.shm, fun begun => ?_, fun begun => ?_, fun begun multiples aligned => ?_⟩
    · exact (plain.ready (Option.isSome_iff_ne_none.mp begun)).1
    · obtain ⟨_, kind, granted, lo, upper, _⟩ := plain.ready (Option.isSome_iff_ne_none.mp begun)
      exact ⟨kind, granted, lo, upper⟩
    obtain ⟨_, kind, _, _, _, startMultiple, stopMultiple⟩ :=
      (admission PageMultiple multiples.1 multiples.2 fun vma mem =>
        (aligned vma mem).stop).ready (Option.isSome_iff_ne_none.mp begun)
    refine ⟨startMultiple, stopMultiple, fun replaces => ?_⟩
    cases kind.symm.trans replaces

inductive Call where
  | insert (vma : KernelVma)
  | edit (request : Request) (commit : Bool)
  | remap (start stop : UInt64) (replacement : KernelVma) (commit : Bool)
  | trimEnd (start oldEnd newEnd : UInt64)
  | clearLocks

def settled : Except Trap (Status × KernelVmaSet × World) → Except Trap (KernelVmaSet × World)
  | .error fault => .error fault
  | .ok (_, set, world) => .ok (set, world)

namespace Call

def run (call : Call) (set : KernelVmaSet) (world : World) : Except Trap (KernelVmaSet × World) :=
  match call with
  | insert vma => settled (set.insert vma world)
  | edit request commit =>
    let prepared := request.prepare set world emptyEdit
    if commit && request.begun prepared then
      settled (prepared.2.1.commitEdit prepared.2.2.2 prepared.2.2.1)
    else .ok (prepared.2.1, prepared.2.2.1)
  | remap start stop replacement commit =>
    match set.prepareRemap start stop replacement world with
    | (.ok, reserved, next, some prepared) =>
      if commit then settled (reserved.commitRemap prepared next) else .ok (reserved, next)
    | (_, reserved, next, _) => .ok (reserved, next)
  | trimEnd start oldEnd newEnd => settled (set.trimEnd start oldEnd newEnd world)
  | clearLocks => set.clearLocks world

def Aligned : Call → Prop
  | insert vma => vma.Aligned
  | edit request _ => request.Aligned
  | remap start stop replacement _ =>
    PageMultiple start ∧ PageMultiple stop ∧ replacement.Aligned
  | trimEnd _ _ newEnd => PageMultiple newEnd
  | clearLocks => True

end Call

/-- What every call keeps, whichever other sets share the attachments. -/
structure Evolves (set : KernelVmaSet) (world : World) (aligned : Prop) (result : KernelVmaSet)
    (next : World) : Prop where
  canonical : Canonical result
  tracks : ∀ others, Tracks (set.live ++ others) world.shm → Tracks (result.live ++ others) next.shm
  aligned : aligned → AllAligned set.live → AllAligned result.live

variable {aligned : Prop} {grown : KernelVmaSet} {vma : KernelVma}

theorem Evolves.of_grown (canon : Canonical set) (data : Grown set grown)
    (shm : next.shm = world.shm) : Evolves set world aligned grown next := by
  refine ⟨⟨data.wellFormed canon.toWellFormed, data.live ▸ canon.separate, ?_⟩, ?_, ?_⟩
  · have cnt := canon.counted
    refine ⟨?_, ?_, ?_⟩
    · rw [data.live, ← cnt.total, data.same]
    · rw [data.live, ← cnt.data, data.same]
    · rw [data.live, ← cnt.locked, data.same]
  · rw [data.live, shm]
    exact fun _ => id
  · rw [data.live]
    exact fun _ => id

theorem Evolves.trans (first : Evolves set world aligned res next)
    (snd : Evolves res next aligned last final) : Evolves set world aligned last final :=
  ⟨snd.canonical, fun rest tracks => snd.tracks rest (first.tracks rest tracks),
    fun multiples start => snd.aligned multiples (first.aligned multiples start)⟩

theorem Evolves.of_inserted (canon : Canonical set) (new : Inserted set vma world st res next)
    (multiples : aligned → vma.Aligned) : Evolves set world aligned res next := by
  cases new with
  | refused failed data shm => exact .of_grown canon data shm
  | added valid split lo above join wf merged self tracks =>
    refine ⟨merged canon.separate, tracks, fun isAligned start => join.aligned ?_⟩
    rw [split] at start
    obtain ⟨first, rest⟩ := AllAligned.append_iff.mp start
    refine AllAligned.append_iff.mpr ⟨first, ?_⟩
    simp only [AllAligned, forall_mem_cons]
    exact ⟨multiples isAligned, rest⟩

theorem Evolves.of_commit (laid : Layout set.live) (commit : Commit set edit bound world res next)
    (multiples : aligned → AllAligned set.live → PageMultiple edit.start ∧ PageMultiple edit.stop ∧
      (edit.kind = .replace → edit.replacement.Aligned)) : Evolves set world aligned res next := by
  obtain ⟨_, _, _, _, _, _, _, _, _, rewriting, canon, _, _, _, _, tracks⟩ := commit
  refine ⟨canon, tracks, fun isAligned start => ?_⟩
  obtain ⟨startMultiple, stopMultiple, new⟩ := multiples isAligned start
  exact rewriting.aligned laid startMultiple stopMultiple new start

theorem Call.run_spec (call : Call) (canon : Canonical set) (world : World) :
    ∃ result next, call.run set world = .ok (result, next) ∧ Evolves set world call.Aligned result next := by
  have wf := canon.toWellFormed
  cases call with
  | insert vma =>
    obtain ⟨st, result, next, out, inserted⟩ := insert_spec wf vma world
    exact ⟨result, next, by rw [run, out, settled], .of_inserted canon inserted id⟩
  | edit req commit =>
    have prep := req.prepare_spec wf world emptyEdit
    have grown : Evolves set world req.Aligned _ _ := .of_grown canon prep.contents prep.shm
    unfold run
    simp only
    split
    next commits =>
      have begun := (Bool.and_eq_true_iff.mp commits).2
      have ready := prep.ready begun
      obtain ⟨result, next, done⟩ := ready.commit grown.canonical.toWellFormed (req.prepare set world emptyEdit).2.2.1
      have evolves : Evolves _ _ req.Aligned result next :=
        .of_commit grown.canonical.layout done fun multiples start =>
          prep.aligned begun multiples (prep.contents.live ▸ start)
      obtain ⟨_, _, _, _, _, _, _, out⟩ := done
      exact ⟨result, next, by rw [out, settled], grown.trans evolves⟩
    · exact ⟨_, _, rfl, grown⟩
  | remap start stop new commit =>
    obtain ⟨st, res, next, _, out, data, shm, ready⟩ := prepareRemap_spec wf start stop new world
    have grown : Evolves set world (Call.remap start stop new commit).Aligned res next := .of_grown canon data shm
    dsimp only [run]
    rw [out]
    cases st with
    | ok =>
      obtain ⟨_, written, readyRemap, sameStart, sameStop, sameReplacement⟩ := ready rfl
      subst written
      simp only
      split
      · obtain ⟨result, final, _, gone, between, remapped⟩ := readyRemap.commit grown.canonical.toWellFormed next
        have removes : Evolves res next (Call.remap start stop new commit).Aligned gone between := by
          refine .of_commit grown.canonical.layout remapped.commit fun multiples _ => ?_
          rw [remapped.written, sameStart, sameStop]
          exact ⟨multiples.1, multiples.2.1, by simp [replaceEdit]⟩
        have inserts : Evolves gone between (Call.remap start stop new commit).Aligned result final :=
          .of_inserted removes.canonical remapped.inserted fun multiples =>
            sameReplacement ▸ multiples.2.2
        exact ⟨result, final, by rw [remapped.outcome, settled], grown.trans (removes.trans inserts)⟩
      · exact ⟨_, _, rfl, grown⟩
    | _ => exact ⟨_, _, rfl, grown⟩
  | trimEnd start oldEnd newEnd =>
    obtain ⟨_, result, next, out, trimmed⟩ := trimEnd_spec wf start oldEnd newEnd world
    refine ⟨result, next, by rw [run, out, settled], ?_⟩
    cases trimmed with
    | refused failed => exact .of_grown canon (Grown.refl _) rfl
    | trimmed split starts stops lo upper live resultWell merged self reqs tracks =>
      refine ⟨merged canon.separate, tracks, fun multiple isAligned => ?_⟩
      rw [live]
      exact trimmedPart_aligned (split ▸ isAligned) multiple
  | clearLocks =>
    obtain ⟨result, out, cleared⟩ := clearLocks_spec wf world
    have laid := unlocked_layout wf.layout
    have join := mergeList_joined (set.live.map unlocked)
    refine ⟨result, world, out, cleared.canonical canon.counted, ?_, ?_⟩
    · intro rest tracks
      refine tracks.congr fun att real => ?_
      have eq : attached att (set.live.map unlocked) = attached att set.live := attached_map fun _ => rfl
      rw [cleared.live, attached_append, attached_append, join.attached laid real, eq]
    · rw [cleared.live]
      exact fun _ isAligned => join.aligned (unlocked_aligned isAligned)

inductive Command where
  | create (self : Nat)
  | call (index : Nat) (call : Call)
  | fork (index self : Nat)
  | destroy (index : Nat)

namespace Machine

/-- A command names its set by position; a position without a set does nothing. -/
def step (machine : Machine) : Command → Except Trap Machine
  | .create self =>
    match KernelVmaSet.create self machine.world with
    | (_, some fresh, next) => .ok ⟨machine.sets ++ [fresh], next⟩
    | (_, none, next) => .ok ⟨machine.sets, next⟩
  | .call index call =>
    match machine.sets[index]? with
    | none => .ok machine
    | some set =>
      match call.run set machine.world with
      | .error fault => .error fault
      | .ok (result, next) => .ok ⟨machine.sets.set index result, next⟩
  | .fork index self =>
    match machine.sets[index]? with
    | none => .ok machine
    | some set =>
      match set.fork self machine.world with
      | .error fault => .error fault
      | .ok (_, some child, next) => .ok ⟨machine.sets ++ [child], next⟩
      | .ok (_, none, next) => .ok ⟨machine.sets, next⟩
  | .destroy index =>
    match machine.sets[index]? with
    | none => .ok machine
    | some set =>
      match set.destroy machine.world with
      | (.ok, next) => .ok ⟨machine.sets.eraseIdx index, next⟩
      | (_, next) => .ok ⟨machine.sets, next⟩

def run (machine : Machine) : List Command → Except Trap Machine
  | [] => .ok machine
  | command :: rest =>
    match machine.step command with
    | .error fault => .error fault
    | .ok next => next.run rest

end Machine

def Command.Aligned : Command → Prop
  | .call _ operation => operation.Aligned
  | _ => True

def Machine.Aligned (machine : Machine) : Prop := ∀ set ∈ machine.sets, AllAligned set.live

theorem Machine.Sound.replace {pre after : List KernelVmaSet} (sound : Machine.Sound ⟨pre ++ set :: after, world⟩)
    (evolves : Evolves set world aligned res next) : Machine.Sound ⟨pre ++ res :: after, next⟩ := by
  refine ⟨?_, ?_⟩
  · intro member mem
    simp only [mem_append, mem_cons] at mem
    rcases mem with inBefore | eq | inAfter
    · exact sound.canonical member (by simp [inBefore])
    · exact eq ▸ evolves.canonical
    · exact sound.canonical member (by simp [inAfter])
  have rest := sound.tracks
  simp only [Machine.entries, flatMap_append, flatMap_cons] at rest ⊢
  refine (evolves.tracks (pre.flatMap live ++ after.flatMap live) (rest.congr ?_)).congr ?_
  · intro att _
    simp only [attached_append]
    omega
  intro att _
  simp only [attached_append]
  omega

theorem Machine.step_sound {machine : Machine} (sound : machine.Sound) (cmd : Command) :
    ∃ next, machine.step cmd = .ok next ∧ next.Sound ∧ (cmd.Aligned → machine.Aligned → next.Aligned) := by
  cases cmd with
  | create self =>
    obtain ⟨st, created, next, out, shm, properties⟩ := create_spec self machine.world
    dsimp only [step]
    rw [out]
    cases created with
    | none => exact ⟨_, rfl, ⟨sound.canonical, shm ▸ sound.tracks⟩, fun _ => id⟩
    | some new =>
      obtain ⟨canon, empty, _⟩ := properties new rfl
      refine ⟨_, rfl, sound.add canon ?_, fun _ isAligned => ?_⟩
      · rw [empty, shm]
        exact fun _ => id
      intro set member
      rcases mem_append.mp member with inSets | eq
      · exact isAligned set inSets
      rw [mem_singleton.mp eq, empty]
      exact fun vma mem => by contradiction
  | call i operation =>
    dsimp only [step]
    cases got : machine.sets[i]? with
    | none => exact ⟨_, rfl, sound, fun _ => id⟩
    | some set =>
      obtain ⟨pre, after, split, replaced, _⟩ := position got
      have canon := sound.canonical set (by simp [split])
      obtain ⟨_, next, out, evolves⟩ := operation.run_spec canon machine.world
      simp only [out, replaced]
      refine ⟨_, rfl, Sound.replace (split ▸ sound) evolves, fun multiples isAligned => ?_⟩
      intro k member
      simp only [mem_append, mem_cons] at member
      rcases member with inBefore | eq | inAfter
      · exact isAligned k (by rw [split]; simp [inBefore])
      · rw [eq]
        exact evolves.aligned multiples (isAligned set (by simp [split]))
      · exact isAligned k (by rw [split]; simp [inAfter])
  | fork i self =>
    dsimp only [step]
    cases got : machine.sets[i]? with
    | none => exact ⟨_, rfl, sound, fun _ => id⟩
    | some set =>
      obtain ⟨pre, after, split, _⟩ := position got
      have member : set ∈ machine.sets := by simp [split]
      have canon := sound.canonical set member
      obtain ⟨_, child, _, out, unchanged, made⟩ := fork_spec canon.toWellFormed self machine.world
      simp only [out]
      cases child with
      | none => exact ⟨_, rfl, ⟨sound.canonical, (unchanged rfl) ▸ sound.tracks⟩, fun _ => id⟩
      | some child =>
        obtain ⟨_, childCanonical, _, join, tracks⟩ := made child rfl
        refine ⟨_, rfl, sound.add childCanonical tracks, fun _ isAligned => ?_⟩
        intro k mem
        rcases mem_append.mp mem with inSets | eq
        · exact isAligned k inSets
        rw [mem_singleton.mp eq]
        exact join.aligned (inherited_aligned (isAligned set member))
  | destroy i =>
    dsimp only [step]
    cases got : machine.sets[i]? with
    | none => exact ⟨_, rfl, sound, fun _ => id⟩
    | some set =>
      obtain ⟨pre, after, split, _, erased⟩ := position got
      have canon := sound.canonical set (by simp [split])
      have remains : ∀ k ∈ pre ++ after, k ∈ machine.sets := fun k mem => by
        rw [split]
        rcases mem_append.mp mem with inBefore | inAfter
        · simp [inBefore]
        · simp [inAfter]
      simp only [destroy_spec canon.valid, erased]
      refine ⟨_, rfl, ⟨fun k mem => sound.canonical k (remains k mem), ?_⟩, fun _ isAligned k mem => isAligned k (remains k mem)⟩
      refine Tracks.closeAll (sound.tracks.congr fun att _ => ?_)
      rw [Machine.entries, Machine.entries, split]
      simp only [flatMap_append, flatMap_cons, attached_append]
      omega

theorem Machine.run_sound {machine : Machine} (sound : machine.Sound) (commands : List Command) :
    ∃ final, machine.run commands = .ok final ∧ final.Sound ∧ ((∀ cmd ∈ commands, cmd.Aligned) → machine.Aligned → final.Aligned) := by
  induction commands generalizing machine with
  | nil => exact ⟨machine, rfl, sound, fun _ => id⟩
  | cons cmd rest ih =>
    obtain ⟨_, out, nextSound, nextAligned⟩ := Machine.step_sound sound cmd
    obtain ⟨final, rested, finalSound, finalAligned⟩ := ih nextSound
    refine ⟨final, by rwa [run, out], finalSound, fun multiples isAligned => ?_⟩
    exact finalAligned (fun k mem => multiples k (by simp [mem])) (nextAligned (multiples cmd (by simp)) isAligned)

end
end BoarOS.Vma
