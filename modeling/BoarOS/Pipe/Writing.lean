import BoarOS.Pipe.Steps

namespace BoarOS.Pipe
open Data Function List Pc

/-! # The steps of writers -/

variable {s : State} {t : Nat} {pc pre : Pc} {action : Action} {res : Option State} {frag : Fragment}
variable {call : WriteCall}

variable [PageGeometry]

namespace State

theorem charged_congr {ring s' : Ring} (size : s'.size = ring.size) (pc : Pc) : charged s' pc = charged ring pc := by
  unfold charged
  split <;> first | rfl | exact size

section
variable (inv : s.Inv)
include inv

namespace Inv

theorem dropWrite (was : s.pcs t = .writing p) (held : (writing p).holdsWrite = true)
    (leaves : pc.holdsRead = false ∧ pc.holdsWrite = false) (asks : pc.Asks) (clear : s.WriterOk (.writing p) → s.mergeSlot = none)
    (empty : hand (.writing p) = none) (unpub : stored (.writing p) = none) : Inv { s.goto t pc with writeLock := none } := by
  have mine : s.writerPc = .writing p := by rw [inv.writerPc_eq (by rw [was, held]), was]
  have unread : (writing p).holdsRead = false := rfl
  have reader : nextHolderPc holdsRead s.readerPc (.writing p) pc = s.readerPc := by
    simp [nextHolderPc, leaves, unread]
  have writer : nextHolderPc holdsWrite s.writerPc (.writing p) pc = .idle (.bytes 0) := by
    simp [nextHolderPc, held, leaves]
  have eq : { s.goto t pc with writeLock := none } = s.moved t (.writing p) pc s.readSlot s.mergeSlot := by
    simp [goto, State.moved, nextLock, held, leaves, unread]
  rw [eq]
  exact inv.moved was asks (by simp [leaves]) (by simp [leaves]) reader writer inv.reader
    (clear (mine ▸ inv.writer)) rfl (by rw [mine, empty]; rfl) (by rw [mine, unpub]; rfl) rfl

theorem nextWriter {p q : WritePc} {s' : State} (was : s.pcs t = .writing p) (held : (writing p).holdsWrite = true)
    (holds : (writing q).holdsWrite = true) (pcs : s'.pcs = update s.pcs t (.writing q)) (readLock : s'.readLock = s.readLock)
    (writeLock : s'.writeLock = s.writeLock) (ring : s'.ring.Ok) (readerOk : s'.ReaderOk s.readerPc) (writerOk : s'.WriterOk (.writing q))
    (spare : ∀ k, (s'.ring.buffers k).page ≠ none → s'.ring.Occupied k ∨ stored (.writing q) = some k)
    (pages : Placed (places s'.ring s.readerPc (.writing q)) s'.owned) (fifo : s'.accepted = s'.returned ++ s'.ring.content s'.memory)
    (eq : s'.account = s.account ∧ s'.others = s.others ∧ s'.ring.size = s.ring.size) : s'.Inv := by
  have locked := (inv.write t).mpr (by rw [was, held])
  have reader : nextHolderPc holdsRead s.readerPc (.writing p) (.writing q) = s.readerPc := rfl
  have writer : nextHolderPc holdsWrite s.writerPc (.writing p) (.writing q) = .writing q := by
    simp [nextHolderPc, holds]
  refine inv.next was pcs trivial (by rintro ⟨⟩) (fun _ => .inr held) (by simp [readLock, nextLock, holdsRead])
    (by simp [writeLock, locked, nextLock, holds]) reader writer ring readerOk writerOk spare pages fifo ?_
  rw [eq.1, eq.2.1, charged_congr eq.2.2]
  exact inv.account

theorem writeOn {p q : WritePc} (was : s.pcs t = .writing p) (held : (writing p).holdsWrite = true) (holds : (writing q).holdsWrite = true)
    (mergeSlot : Option Nat) (free : s.readSlot = some s.ring.head → mergeSlot ≠ some s.ring.head)
    (ok : WriterOk { s with mergeSlot := mergeSlot } (.writing q)) (empty : hand (.writing p) = none ∧ hand (.writing q) = none)
    (unpub : stored (.writing p) = none ∧ stored (.writing q) = none) : Inv { s.goto t (.writing q) with mergeSlot := mergeSlot } := by
  have mine : s.writerPc = .writing p := by rw [inv.writerPc_eq (by rw [was, held]), was]
  refine inv.nextWriter was held holds rfl rfl rfl inv.ring
    (ReaderOk.frame inv.reader rfl le_rfl rfl fun reading some _ => ⟨free reading, some, rfl, rfl⟩) ok ?_ ?_
    inv.fifo ⟨rfl, rfl, rfl⟩
  · intro k has
    rcases inv.spare k has with occupied | here
    · exact .inl occupied
    rw [mine, unpub.1] at here
    cases here
  · exact placed_congr inv.pages (fun _ => rfl) rfl (by rw [mine, empty.1, empty.2])

theorem page_of_merging (ok : s.FragmentOk frag) (merging : frag.merging = true) : (s.ring.buffers frag.slot).page ≠ none := by
  obtain ⟨_, ok⟩ := ok
  rw [if_pos merging] at ok
  rw [ok.2.1]
  exact (inv.ring.buffer_of_occupied (inv.ring.last_occupied ok.1)).page

/-- The slot behind the queue has no page before a writer puts one there. -/
theorem tail_empty (room : s.ring.slots < s.ring.size) (unpub : stored s.writerPc = none) : (s.ring.buffers s.ring.tail).page = none := by
  by_contra present
  rcases inv.spare _ present with occupied | here
  · exact inv.ring.tail_free room occupied
  rw [unpub] at here
  cases here

theorem choose (was : s.pcs t = .writing (.next call))
    (more : call.total < call.count) (room : ¬ (s.merging call = false ∧ s.ring.slots = s.ring.size)) :
    Inv { s.goto t (.writing (.page call (s.fragment call (s.merging call)))) with
      mergeSlot := if (s.fragment call (s.merging call)).merging then
        some (s.fragment call (s.merging call)).slot else s.mergeSlot } := by
  have mine : s.writerPc = .writing (.next call) := by rw [inv.writerPc_eq (by rw [was]; rfl), was]
  have clear := inv.writer
  rw [mine] at clear
  cases merges : s.merging call with
  | true =>
    unfold merging at merges
    simp only [Bool.and_eq_true, decide_eq_true_eq] at merges
    obtain ⟨⟨⟨_, some_⟩, occupied⟩, space⟩ := merges
    unfold Ring.tailSpace at space
    rw [if_neg occupied] at space
    split at space
    · omega
    rename_i open_
    rw [not_or] at open_
    refine inv.writeOn was rfl rfl _ (fun reading marked => ?_) ⟨⟨Nat.pos_of_ne_zero some_,
      occupied, rfl, rfl, rfl, ?_⟩, nofun⟩ ⟨rfl, rfl⟩ ⟨rfl, rfl⟩
    · rw [reading] at open_
      exact open_.1 marked.symm
    · change (s.ring.buffers s.ring.last).offset + (s.ring.buffers s.ring.last).length + call.remainder ≤ pageSize
      omega
  | false =>
    have slots : s.ring.slots < s.ring.size := lt_of_le_of_ne inv.ring.slots fun full => room ⟨merges, full⟩
    refine inv.writeOn was rfl rfl _ (fun _ marked => ?_) ⟨⟨?_, slots, rfl, clear, rfl, ?_⟩,
      fun _ => inv.tail_empty slots (by rw [mine]; rfl)⟩ ⟨rfl, rfl⟩ ⟨rfl, rfl⟩
    · rw [show s.mergeSlot = none from clear] at marked
      cases marked
    · change 0 < if call.count - call.total < pageSize then call.count - call.total else pageSize
      split
      · omega
      · exact pageSize_pos
    · change (if call.count - call.total < pageSize then call.count - call.total else pageSize) ≤ pageSize
      split <;> omega

theorem allocate {page : Nat} (was : s.pcs t = .writing (.page call frag)) (out : (s.ring.buffers frag.slot).page = none)
    (fresh : s.owned page = false) : Inv { s.goto t (.writing (.store call frag page)) with owned := update s.owned page true } := by
  obtain ⟨mine, writer⟩ := inv.writerIs was rfl
  have new : frag.merging = false := by
    cases merging : frag.merging with
    | false => rfl
    | true => exact absurd out (inv.page_of_merging writer.1 merging)
  refine inv.nextWriter was rfl rfl rfl rfl rfl inv.ring inv.reader ⟨writer.1, new, out⟩ ?_ ?_ inv.fifo ⟨rfl, rfl, rfl⟩
  · have spare := inv.spare
    rw [mine] at spare
    exact spare
  · rw [places_writer s.writerPc]
    exact inv.pages.acquire fresh (by rw [places, mine]; rfl)

theorem setPage {p q : WritePc} (was : s.pcs t = .writing p) (held : (writing p).holdsWrite = true)
    (holds : (writing q).holdsWrite = true) (room : s.ring.slots < s.ring.size) (clear : s.mergeSlot = none)
    (page : Option Nat) (ok : WriterOk { s with ring := s.ring.setPage s.ring.tail page } (.writing q))
    (spare : (∀ k, stored (.writing p) = some k → k = s.ring.tail) ∧ (page ≠ none → stored (.writing q) = some s.ring.tail))
    (pages : Placed (places (s.ring.setPage s.ring.tail page) s.readerPc (.writing q)) s.owned) :
    Inv { s.goto t (.writing q) with mergeSlot := none, ring := s.ring.setPage s.ring.tail page } := by
  have mine : s.writerPc = .writing p := by rw [inv.writerPc_eq (by rw [was, held]), was]
  obtain ⟨ring, queue⟩ := inv.ring.setPage room page
  refine inv.nextWriter was held holds rfl rfl rfl ring
    (ReaderOk.frame inv.reader rfl le_rfl rfl fun _ some _ => ⟨nofun, some, ?_, rfl⟩) ?_ (fun k has => ?_)
    pages ?_ ⟨rfl, rfl, rfl⟩
  · have ne : s.ring.head ≠ s.ring.tail := fun eq =>
      inv.ring.tail_free room (eq ▸ inv.ring.head_occupied some)
    exact update_of_ne ne ..
  · have keep : ({ s.goto t (.writing q) with mergeSlot := none, ring := s.ring.setPage s.ring.tail page } : State) =
        { s.goto t (.writing q) with mergeSlot := s.mergeSlot, ring := s.ring.setPage s.ring.tail page } := by
      rw [clear]
    rw [keep]
    exact ok
  · rcases eq_or_ne k s.ring.tail with rfl | ne
    · right
      refine spare.2 fun none_ => has ?_
      change (update s.ring.buffers s.ring.tail _ s.ring.tail).page = none
      rw [update_self]
      exact none_
    · have eq : (s.ring.setPage s.ring.tail page).buffers k = s.ring.buffers k := update_of_ne ne ..
      rw [eq] at has
      rcases inv.spare k has with occupied | here
      · exact .inl occupied
      rw [mine] at here
      exact absurd (spare.1 k here) ne
  · rw [Ring.content, queue]
    exact inv.fifo

theorem copyIn {put : List UInt8} {page : Nat} {byte : UInt8} (was : s.pcs t = .writing (.copy call frag put))
    (has : (s.ring.buffers frag.slot).page = some page) (more : put.length < frag.chunk) :
    Inv { s.goto t (.writing (.copy call frag (put ++ [byte]))) with
      memory := update s.memory page (update (s.memory page) (frag.offset + put.length) byte) } := by
  obtain ⟨mine, writer⟩ := inv.writerIs was rfl
  obtain ⟨ok, own, here, _, copied⟩ := writer
  rw [has, Option.some.injEq] at here
  subst here
  -- The page is the writer's own or the last buffer's, behind its bytes.
  have away : ∀ k, s.ring.Occupied k → (s.ring.buffers k).contents (update s.memory page
        (update (s.memory page) (frag.offset + put.length) byte)) = (s.ring.buffers k).contents s.memory := by
    intro k occupied
    refine Buffer.contents_write (fun shared => ?_) (inv.ring.buffer_of_occupied occupied).page
    have eq : k = frag.slot := Spot.slot.inj (inv.pages.single (.slot k) (.slot frag.slot) page shared has)
    obtain ⟨_, ok⟩ := ok
    split at ok
    · rw [eq, ok.2.1, ok.2.2.2.1]
      exact Nat.le_add_right ..
    · rw [eq, ok.2.1] at occupied
      exact absurd occupied (inv.ring.tail_free ok.1)
  refine inv.nextWriter was rfl rfl rfl rfl rfl inv.ring (ReaderOk.frame inv.reader rfl le_rfl rfl fun _ some free =>
      ⟨free, some, rfl, away _ (inv.ring.head_occupied some)⟩)
    ⟨ok, page, has, ?_, ?_⟩ ?_ ?_ ?_ ⟨rfl, rfl, rfl⟩
  · rw [length_append]
    exact more
  · rw [length_append, length_singleton, range_succ, map_append, map_singleton]
    dsimp only
    rw [update_self, update_self]
    congr 1
    refine copied.trans (map_congr_left fun j mem => ?_)
    rw [update_of_ne]
    have := mem_range.mp mem
    omega
  · have spare := inv.spare
    rw [mine] at spare
    exact spare
  · have pages := inv.pages
    rw [mine] at pages
    exact pages
  · change s.accepted = s.returned ++ s.ring.content _
    rw [inv.fifo]
    congr 1
    refine (flatMap_congr fun buf mem => ?_).symm
    obtain ⟨i, lt, rfl⟩ := mem_map.mp mem
    exact away _ ⟨i, mem_range.mp lt, rfl⟩

theorem publish {put : List UInt8} (was : s.pcs t = .writing (.copy call frag put)) (all : put.length = frag.chunk) :
    Inv { s.goto t (.writing (.next { call with total := call.total + frag.chunk })) with
      ring := s.ring.publish frag call.kernel, mergeSlot := none, accepted := s.accepted ++ put } := by
  obtain ⟨mine, writer⟩ := inv.writerIs was rfl
  obtain ⟨⟨some_, ok⟩, _, has, _, copied⟩ := writer
  rw [all] at copied
  have pos : ∀ s' : Ring, s.ring.Published s' frag.chunk →
      places s' s.readerPc (.writing (.next { call with total := call.total + frag.chunk })) =
        places s.ring s.readerPc s.writerPc := fun s' pub => by
    funext spot
    cases spot with
    | slot k => exact pub.pages k
    | reader => rfl
    | writer => rw [mine]; rfl
  cases merging : frag.merging with
  | true =>
    rw [if_pos merging] at ok
    obtain ⟨occupied, slot, marked, offset, fits⟩ := ok
    rw [slot] at has
    obtain ⟨pub, rest, text⟩ := inv.ring.extend occupied slot merging call.kernel (by omega) has
    refine inv.nextWriter was rfl rfl rfl rfl rfl pub.ok
      (ReaderOk.frame inv.reader rfl (by rw [pub.bytes]; exact Nat.le_add_right ..) pub.head
        fun _ _ free => ⟨nofun, pub.slots.2, rest _ ?_, rfl⟩) rfl (fun k here => ?_) ?_ ?_
      ⟨rfl, rfl, pub.size⟩
    · rintro eq
      exact free (by rw [eq, marked, slot])
    · rw [pub.pages] at here
      rcases inv.spare k here with old | unpub
      · exact .inl (pub.occupied k old)
      rw [mine, stored, if_pos merging] at unpub
      cases unpub
    · rw [pos _ pub]
      exact inv.pages
    · change s.accepted ++ put = s.returned ++ (s.ring.publish frag call.kernel).content s.memory
      rw [text, inv.fifo, append_assoc, ← offset, ← copied]
  | false =>
    rw [if_neg (by simp [merging])] at ok
    obtain ⟨room, slot, _, offset, fits⟩ := ok
    rw [slot] at has
    obtain ⟨pub, here, rest, text⟩ := inv.ring.append room slot merging call.kernel some_ fits has
    refine inv.nextWriter was rfl rfl rfl rfl rfl pub.ok
      (ReaderOk.frame inv.reader rfl (by rw [pub.bytes]; exact Nat.le_add_right ..) pub.head
        fun _ occupied _ => ⟨nofun, pub.slots.2, rest _ fun eq => ?_, rfl⟩) rfl (fun k paged => ?_) ?_ ?_
      ⟨rfl, rfl, pub.size⟩
    · exact inv.ring.tail_free room (eq ▸ inv.ring.head_occupied occupied)
    · rw [pub.pages] at paged
      rcases inv.spare k paged with old | unpub
      · exact .inl (pub.occupied k old)
      rw [mine, stored, if_neg (by simp [merging]), slot, Option.some.injEq] at unpub
      exact .inl (unpub ▸ here)
    · rw [pos _ pub]
      exact inv.pages
    · rw [offset] at copied
      change s.accepted ++ put = s.returned ++ (s.ring.publish frag call.kernel).content s.memory
      rw [text, inv.fifo, append_assoc, ← copied]

theorem releaseWriter {page : Nat} {out : Outcome} (was : s.pcs t = .writing (.drop page out)) :
    ∃ s', s.releasePage t page (.writing (.done out)) = some s' ∧ s'.Inv := by
  obtain ⟨mine, writer⟩ := inv.writerIs was rfl
  have held : places s.ring s.readerPc s.writerPc .writer = some page := by rw [places, mine]; rfl
  unfold releasePage
  rw [if_pos (inv.pages.owned_of held)]
  refine ⟨_, rfl, inv.nextWriter was rfl rfl rfl rfl rfl inv.ring inv.reader writer ?_ ?_ inv.fifo ⟨rfl, rfl, rfl⟩⟩
  · have spare := inv.spare
    rw [mine] at spare
    exact spare
  · rw [places_writer s.writerPc]
    exact inv.pages.release held

theorem writeNext (was : s.pcs t = .writing (.next call))
    (ran : s.writeStep t (.next call) .go = some res) : ∃ s', res = some s' ∧ s'.Inv := by
  dsimp only [State.writeStep] at ran
  have clear : s.mergeSlot = none := by
    have writer := inv.writer
    rwa [inv.writerPc_eq (by rw [was]; rfl), was] at writer
  have ends : ∀ out, Inv (s.goto t (.writing (.done out))) := fun out =>
    inv.writeOn was rfl rfl s.mergeSlot (fun _ => by simp [clear]) clear ⟨rfl, rfl⟩ ⟨rfl, rfl⟩
  split at ran
  · cases ran
    exact ⟨_, rfl, ends _⟩
  rename_i more
  split at ran
  · cases ran
    exact ⟨_, rfl, ends _⟩
  rename_i open_
  split at ran
  next full =>
    split at ran
    · cases ran
      exact ⟨_, rfl, ends _⟩
    rw [if_neg (by simp [full.2, open_])] at ran
    cases ran
    exact ⟨_, rfl, inv.writeOn was rfl rfl s.mergeSlot (fun _ => by simp [clear]) clear ⟨rfl, rfl⟩ ⟨rfl, rfl⟩⟩
  next room =>
    cases ran
    exact ⟨_, rfl, inv.choose was (Nat.lt_of_not_le more) room⟩

theorem writeMerge (was : s.pcs t = .writing (.page call frag))
    (ran : s.writeStep t (.page call frag) .go = some res) : ∃ s', res = some s' ∧ s'.Inv := by
  dsimp only [State.writeStep] at ran
  obtain ⟨_, writer⟩ := inv.writerIs was rfl
  split at ran
  · cases ran
  rename_i page has
  have merging : frag.merging = true := by
    cases merging : frag.merging with
    | true => rfl
    | false =>
      rw [writer.2 merging] at has
      cases has
  cases ran
  have unpub : stored (.writing (.copy call frag [])) = none := by rw [stored, if_pos merging]
  have marked := writer.1.2
  refine ⟨_, rfl, inv.writeOn was rfl rfl s.mergeSlot (fun reading here => ?_)
    ⟨writer.1, page, has, Nat.zero_le _, rfl⟩ ⟨rfl, rfl⟩ ⟨rfl, unpub⟩⟩
  -- Nobody reads the slot that is marked.
  have reader := inv.reader
  unfold ReaderOk at reader
  split at reader
  · rw [reading] at reader
    exact reader.1.2.1 (here.trans (by rw [reader.1.1]))
  all_goals simp [reading] at reader

theorem writeAllocate (was : s.pcs t = .writing (.page call frag))
    (ran : s.writeStep t (.page call frag) (.allocate page) = some res) : ∃ s', res = some s' ∧ s'.Inv := by
  dsimp only [State.writeStep] at ran
  obtain ⟨_, writer⟩ := inv.writerIs was rfl
  split at ran
  next out =>
    have clear : s.mergeSlot = none := by
      obtain ⟨ok, _⟩ := writer
      cases merging : frag.merging with
      | true => exact absurd out (inv.page_of_merging ok merging)
      | false =>
        have pos := ok.2
        rw [if_neg (by simp [merging])] at pos
        exact pos.2.2.1
    cases ran
    exact ⟨_, rfl, inv.writeOn was rfl rfl s.mergeSlot (fun _ => by simp [clear]) clear ⟨rfl, rfl⟩ ⟨rfl, rfl⟩⟩
  next out =>
    split at ran
    · cases ran
    next new =>
      cases ran
      exact ⟨_, rfl, inv.allocate was out (by simpa using new)⟩
  · cases ran

end Inv
end

omit [PageGeometry] in
theorem places_setPage (ring : Ring) (reader pre s' : Pc) (k : Nat) (page : Option Nat) : places (ring.setPage k page) reader s' =
      update (update (places ring reader pre) .writer (hand s')) (.slot k) page := by
  funext spot
  cases spot with
  | slot j =>
    change (update ring.buffers k _ j).page = _
    rcases eq_or_ne j k with rfl | ne
    · rw [update_self, update_self]
    rw [update_of_ne ne, update_of_ne (fun eq => ne (Spot.slot.inj eq)), update_of_ne (show Spot.slot j ≠ .writer from nofun)]
    rfl
  | reader =>
    rfl
  | writer =>
    rfl

theorem Inv.writeStore (inv : s.Inv) (was : s.pcs t = .writing (.store call frag page))
    (ran : s.writeStep t (.store call frag page) .go = some res) : ∃ s', res = some s' ∧ s'.Inv := by
  obtain ⟨mine, writer⟩ := inv.writerIs was rfl
  obtain ⟨ok, new, out⟩ := writer
  have pos := ok.2
  rw [if_neg (by simp [new])] at pos
  obtain ⟨room, slot, clear, offset, fits⟩ := pos
  cases ran
  have kept : Inv { s.goto t (.writing (.copy call frag [])) with
      mergeSlot := none, ring := s.ring.setPage s.ring.tail (some page) } := by
    rw [slot] at out
    refine inv.setPage was rfl rfl room clear (some page) ⟨⟨ok.1, ?_⟩, page, ?_, Nat.zero_le _, rfl⟩
      ⟨nofun, fun _ => by rw [stored, if_neg (by simp [new]), slot]⟩ ?_
    · rw [if_neg (by simp [new])]
      exact ⟨room, slot, clear, offset, fits⟩
    · rw [slot]
      change (update s.ring.buffers s.ring.tail _ s.ring.tail).page = some page
      rw [update_self]
    · rw [places_setPage s.ring s.readerPc s.writerPc]
      exact inv.pages.move (by rw [places, mine]; rfl) out
  have marked : ({ s.goto t (.writing (.copy call frag [])) with
      ring := s.ring.setPage frag.slot (some page) } : State) =
      { s.goto t (.writing (.copy call frag [])) with mergeSlot := none, ring := s.ring.setPage s.ring.tail (some page) } := by
    rw [slot, ← clear]
    rfl
  rw [marked]
  exact ⟨_, rfl, kept⟩

theorem Inv.writeFault (inv : s.Inv) (was : s.pcs t = .writing (.copy call frag put))
    (ran : s.writeStep t (.copy call frag put) .fault = some res) : ∃ s', res = some s' ∧ s'.Inv := by
  dsimp only [State.writeStep] at ran
  obtain ⟨mine, writer⟩ := inv.writerIs was rfl
  obtain ⟨⟨_, ok⟩, _, has, _⟩ := writer
  split at ran
  · cases ran
  split at ran
  next merging =>
    cases ran
    exact ⟨_, rfl, inv.writeOn was rfl rfl none nofun rfl ⟨rfl, rfl⟩ ⟨by rw [stored, if_pos merging], rfl⟩⟩
  rename_i new
  rw [if_neg new] at ok
  obtain ⟨room, slot, clear, _⟩ := ok
  rw [slot] at has
  rw [← Option.some.inj ran, slot, has]
  refine ⟨_, rfl, inv.setPage was rfl rfl room clear none clear ⟨fun k here => ?_, fun some_ => absurd rfl some_⟩ ?_⟩
  · rw [stored, if_neg new, slot, Option.some.injEq] at here
    exact here.symm
  · rw [places_setPage s.ring s.readerPc s.writerPc, update_comm (show Spot.writer ≠ .slot _ from nofun)]
    exact inv.pages.move has (by rw [places, mine]; rfl)

theorem Inv.writeStep (inv : s.Inv) (was : s.pcs t = .writing p)
    (ran : s.writeStep t p action = some res) : ∃ s', res = some s' ∧ s'.Inv := by
  unfold State.writeStep at ran
  split at ran
  · -- lock
    split at ran
    next free =>
      cases ran
      exact ⟨_, rfl, inv.takeWrite was free trivial ⟨rfl, rfl⟩ id id ⟨rfl, rfl⟩ rfl rfl⟩
    · cases ran
  · exact inv.writeNext was ran
  · -- parking
    cases ran
    exact ⟨_, rfl, inv.dropWrite was rfl ⟨rfl, rfl⟩ trivial id rfl rfl⟩
  · -- parked
    cases ran
    rename_i signalled
    cases signalled <;> exact ⟨_, rfl, inv.outside was rfl rfl trivial ⟨rfl, rfl⟩⟩
  · exact inv.writeMerge was ran
  · exact inv.writeAllocate was ran
  · exact inv.writeStore was ran
  · -- one byte is copied
    obtain ⟨_, writer⟩ := inv.writerIs was rfl
    obtain ⟨_, _, has, _⟩ := writer
    split at ran
    next more =>
      rw [has] at ran
      cases ran
      exact ⟨_, rfl, inv.copyIn was has more⟩
    · cases ran
  · exact inv.writeFault was ran
  · -- the bytes are published
    split at ran
    next all =>
      cases ran
      exact ⟨_, rfl, inv.publish was all⟩
    · cases ran
  · -- drop
    cases ran
    obtain ⟨s', freed, kept⟩ := inv.releaseWriter was
    exact ⟨s', freed, kept⟩
  · -- done
    cases ran
    exact ⟨_, rfl, inv.dropWrite was rfl ⟨rfl, rfl⟩ trivial id rfl rfl⟩
  · cases ran

end State
end BoarOS.Pipe
