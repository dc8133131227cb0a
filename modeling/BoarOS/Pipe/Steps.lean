import BoarOS.Pipe.Invariant

namespace BoarOS.Pipe
open Data Function List Pc

/-! # Every step keeps the invariant -/

variable {s : State} {t : Nat} {pc pre : Pc} {action : Action} {res : Option State}

namespace State

def moved (s : State) (t : Nat) (before pc : Pc) (readSlot mergeSlot : Option Nat) : State :=
  { s with
    pcs := update s.pcs t pc
    readLock := nextLock Pc.holdsRead s.readLock t before pc
    writeLock := nextLock Pc.holdsWrite s.writeLock t before pc
    readSlot := readSlot
    mergeSlot := mergeSlot }

theorem readerPc_of_free (free : s.readLock = none) : s.readerPc = .idle (.bytes 0) := by
  rw [readerPc, free, holderPc]

theorem writerPc_of_free (free : s.writeLock = none) : s.writerPc = .idle (.bytes 0) := by
  rw [writerPc, free, holderPc]

variable [PageGeometry]

theorem Inv.moved (inv : s.Inv) (was : s.pcs t = pre) (asks : pc.Asks)
    (readFree : pc.holdsRead = true → s.readLock = none ∨ pre.holdsRead = true)
    (writeFree : pc.holdsWrite = true → s.writeLock = none ∨ pre.holdsWrite = true) {reader writer : Pc}
    (readerPc : nextHolderPc holdsRead s.readerPc pre pc = reader) (writerPc : nextHolderPc holdsWrite s.writerPc pre pc = writer)
    {readSlot mergeSlot : Option Nat} (readerOk : (s.moved t pre pc readSlot mergeSlot).ReaderOk reader)
    (writerOk : (s.moved t pre pc readSlot mergeSlot).WriterOk writer) (readerHand : hand reader = hand s.readerPc)
    (writerHand : hand writer = hand s.writerPc) (unpub : stored writer = stored s.writerPc)
    (pages : charged s.ring reader = charged s.ring s.readerPc) : (s.moved t pre pc readSlot mergeSlot).Inv := by
  refine inv.next was rfl asks readFree writeFree rfl rfl readerPc writerPc inv.ring readerOk writerOk ?_ ?_ inv.fifo ?_
  · rw [unpub]
    exact inv.spare
  · exact placed_congr inv.pages (fun _ => rfl) readerHand writerHand
  · rw [show charged (s.moved t pre pc readSlot mergeSlot).ring reader = charged s.ring s.readerPc from pages]
    exact inv.account

theorem Inv.outside (inv : s.Inv) (was : s.pcs t = pre) (noRead : pre.holdsRead = false) (noWrite : pre.holdsWrite = false)
    (asks : pc.Asks) (stays : pc.holdsRead = false ∧ pc.holdsWrite = false) : (s.goto t pc).Inv := by
  have eq : s.goto t pc = s.moved t pre pc s.readSlot s.mergeSlot := by
    simp [goto, State.moved, nextLock, noRead, noWrite, stays]
  rw [eq]
  exact inv.moved was asks (by simp [stays]) (by simp [stays]) (by simp [nextHolderPc, noRead, stays])
    (by simp [nextHolderPc, noWrite, stays]) inv.reader inv.writer rfl rfl rfl rfl

theorem Inv.takeWrite (inv : s.Inv) (was : s.pcs t = pre) (free : s.writeLock = none) (asks : pc.Asks)
    (holds : pc.holdsWrite = true ∧ pc.holdsRead = pre.holdsRead) (reads : s.ReaderOk pre → s.ReaderOk pc)
    (ok : s.mergeSlot = none → s.WriterOk pc) (empty : hand pc = none ∧ hand pre = none) (unpub : stored pc = none)
    (size : charged s.ring pc = charged s.ring pre) : Inv { s.goto t pc with writeLock := some t } := by
  have idle := writerPc_of_free free
  have clear : s.mergeSlot = none := by
    have writer := inv.writer
    rwa [idle] at writer
  have writer : nextHolderPc holdsWrite s.writerPc pre pc = pc := by simp [nextHolderPc, holds.1]
  by_cases mine : pre.holdsRead = true
  · have locked := (inv.read t).mpr (by rw [was, mine])
    have isReader : s.readerPc = pre := by rw [inv.readerPc_eq (by rw [was, mine]), was]
    have reader : nextHolderPc holdsRead s.readerPc pre pc = pc := by simp [nextHolderPc, holds.2, mine]
    have eq : { s.goto t pc with writeLock := some t } = s.moved t pre pc s.readSlot s.mergeSlot := by
      simp [goto, State.moved, nextLock, holds, locked]
    rw [eq]
    exact inv.moved was asks (fun _ => .inr mine) (fun _ => .inl free) reader writer
      (reads (isReader ▸ inv.reader)) (ok clear) (by rw [isReader, empty.1, empty.2]) (by rw [idle, empty.1]; rfl)
      (by rw [idle, unpub]; rfl) (by rw [isReader, size])
  · have off : pre.holdsRead = false := by simpa using mine
    have reader : nextHolderPc holdsRead s.readerPc pre pc = s.readerPc := by
      simp [nextHolderPc, holds.2, off]
    have eq : { s.goto t pc with writeLock := some t } = s.moved t pre pc s.readSlot s.mergeSlot := by
      simp [goto, State.moved, nextLock, holds, off]
    rw [eq]
    exact inv.moved was asks (by simp [holds.2, off]) (fun _ => .inl free) reader writer inv.reader (ok clear) rfl
      (by rw [idle, empty.1]; rfl) (by rw [idle, unpub]; rfl) rfl

section
variable (inv : s.Inv)
include inv

theorem Inv.takeRead (was : s.pcs t = pre) (free : s.readLock = none) (asks : pc.Asks) (holds : pc.holdsRead = true ∧ pc.holdsWrite = false)
    (none_ : pre.holdsWrite = false) (ok : s.readSlot = none → s.ReaderOk pc) (empty : hand pc = none)
    (size : charged s.ring pc = s.ring.size) : Inv { s.goto t pc with readLock := some t } := by
  have idle := readerPc_of_free free
  have unread : s.readSlot = none := by
    have reader := inv.reader
    rwa [idle] at reader
  have eq : { s.goto t pc with readLock := some t } = s.moved t pre pc s.readSlot s.mergeSlot := by
    simp [goto, State.moved, nextLock, holds, none_]
  rw [eq]
  exact inv.moved was asks (fun _ => .inl free) (by simp [holds]) (by simp [nextHolderPc, holds])
    (by simp [nextHolderPc, none_, holds]) (ok unread) inv.writer (by rw [empty, idle]; rfl) rfl rfl
    (by rw [size, idle]; rfl)

theorem Inv.dropRead (was : s.pcs t = pre) (held : pre.holdsRead = true) (asks : pc.Asks) (none_ : pre.holdsWrite = false)
    (leaves : pc.holdsRead = false ∧ pc.holdsWrite = false) (unread : s.ReaderOk pre → s.readSlot = none)
    (empty : hand pre = none) (size : charged s.ring pre = s.ring.size) : Inv { s.goto t pc with readLock := none } := by
  have mine : s.readerPc = pre := by rw [inv.readerPc_eq (by rw [was, held]), was]
  have eq : { s.goto t pc with readLock := none } = s.moved t pre pc s.readSlot s.mergeSlot := by
    simp [goto, State.moved, nextLock, held, none_, leaves]
  have gone : nextHolderPc holdsRead s.readerPc pre pc = .idle (.bytes 0) := by
    simp [nextHolderPc, held, leaves]
  rw [eq]
  exact inv.moved was asks (by simp [leaves]) (by simp [leaves]) gone (by simp [nextHolderPc, none_, leaves])
    (unread (mine ▸ inv.reader)) inv.writer (by rw [mine, empty]; rfl) rfl rfl
    (by rw [mine, size]; rfl)

theorem Inv.nextReader {p q : ReadPc} {s' : State} (was : s.pcs t = .reading p) (asks : (reading q).Asks)
    (held : (reading p).holdsRead = true ∧ (reading p).holdsWrite = false)
    (holds : (reading q).holdsRead = true ∧ (reading q).holdsWrite = false) (pcs : s'.pcs = update s.pcs t (.reading q))
    (readLock : s'.readLock = s.readLock) (writeLock : s'.writeLock = s.writeLock) (ring : s'.ring.Ok) (readerOk : s'.ReaderOk (.reading q))
    (writerOk : s'.WriterOk s.writerPc) (spare : ∀ k, (s'.ring.buffers k).page ≠ none → s'.ring.Occupied k ∨ stored s.writerPc = some k)
    (pages : Placed (places s'.ring (.reading q) s.writerPc) s'.owned) (fifo : s'.accepted = s'.returned ++ s'.ring.content s'.memory)
    (eq : s'.account = s.account ∧ s'.others = s.others ∧ s'.ring.size = s.ring.size) : s'.Inv := by
  have locked := (inv.read t).mpr (by rw [was, held.1])
  have reader : nextHolderPc holdsRead s.readerPc (.reading p) (.reading q) = .reading q := by
    simp [nextHolderPc, holds.1]
  have writer : nextHolderPc holdsWrite s.writerPc (.reading p) (.reading q) = s.writerPc := by
    simp [nextHolderPc, held.2, holds.2]
  have acc := inv.account
  rw [inv.readerPc_eq (by rw [was, held.1]), was] at acc
  refine inv.next was pcs asks (fun _ => .inr held.1) (by simp [holds.2]) (by simp [readLock, locked, nextLock, holds.1])
    (by simp [writeLock, nextLock, held.2, holds.2]) reader writer ring readerOk writerOk spare pages fifo ?_
  rw [eq.1, eq.2.1]
  exact ⟨acc.1.trans (congrArg (s.others + ·) eq.2.2.symm), acc.2⟩

theorem Inv.readOn {p q : ReadPc} (was : s.pcs t = .reading p) (asks : (reading q).Asks)
    (held : (reading p).holdsRead = true ∧ (reading p).holdsWrite = false)
    (holds : (reading q).holdsRead = true ∧ (reading q).holdsWrite = false) (readSlot : Option Nat)
    (ok : ReaderOk { s with readSlot := readSlot } (.reading q)) (empty : hand (.reading p) = none ∧ hand (.reading q) = none) :
    Inv { s.goto t (.reading q) with readSlot := readSlot } := by
  have mine : s.readerPc = .reading p := by rw [inv.readerPc_eq (by rw [was, held.1]), was]
  refine inv.nextReader was asks held holds rfl rfl rfl inv.ring ok inv.writer inv.spare ?_ inv.fifo ⟨rfl, rfl, rfl⟩
  exact placed_congr inv.pages (fun _ => rfl) (by rw [mine, empty.1, empty.2]) rfl

theorem Inv.consume {requested committed slot offset chunk : Nat} {got : List UInt8}
    (was : s.pcs t = .reading (.copy requested committed slot offset chunk got)) (all : got.length = chunk) :
    ∃ page ring, s.ring.consume s.mergeSlot chunk = some (page, ring) ∧
      Inv { s.goto t (.reading (.afterBuffer requested (committed + chunk) page)) with
        ring := ring, readSlot := none, returned := s.returned ++ got } := by
  obtain ⟨mine, reader⟩ := inv.readerIs was rfl
  obtain ⟨⟨_, free, here, occupied⟩, ⟨_, fits⟩, ⟨_, _⟩, _, copied⟩ := reader
  subst here
  rw [all] at copied
  obtain ⟨page, ring, outcome, done⟩ := inv.ring.consume occupied fits free
  have holds : ((reading (.afterBuffer requested (committed + chunk) page)).holdsRead = true ∧
      (reading (.afterBuffer requested (committed + chunk) page)).holdsWrite = false) ∧
      hand (.reading (.afterBuffer requested (committed + chunk) page)) = page := by
    cases page <;> exact ⟨⟨rfl, rfl⟩, rfl⟩
  refine ⟨page, ring, outcome, inv.nextReader was (by cases page <;> trivial) ⟨rfl, rfl⟩ holds.1 rfl rfl rfl done.ok ?_ ?_ ?_ ?_ ?_
    ⟨rfl, rfl, done.size⟩⟩
  · have bytes := done.bytes
    cases page <;> exact ⟨rfl, by omega, by dsimp only; omega⟩
  · refine WriterOk.frame inv.writer rfl rfl done.size done.tail (fun some marked => ?_) fun room => ?_
    · have ne : s.ring.last ≠ s.ring.head := fun eq => free (by rw [marked, eq])
      have more : 1 < s.ring.slots := by
        by_contra few
        refine ne ?_
        rw [inv.ring.last some, show s.ring.slots - 1 = 0 by omega, add_zero, Nat.mod_eq_of_lt inv.ring.head]
      exact ⟨done.slots.2 more, done.others _ ne⟩
    · have ne : s.ring.tail ≠ s.ring.head := fun eq =>
        inv.ring.tail_free room (eq ▸ inv.ring.head_occupied occupied)
      exact ⟨lt_of_le_of_lt done.slots.1 room, done.others _ ne⟩
  · intro k has
    rcases eq_or_ne k s.ring.head with rfl | ne
    · rcases done.occupied _ (inv.ring.head_occupied occupied) with still | ⟨_, gone⟩
      · exact .inl still
      · exact absurd gone has
    rw [done.others k ne] at has
    rcases inv.spare k has with old | unpub
    · rcases done.occupied k old with still | ⟨eq, _⟩
      · exact .inl still
      · exact absurd eq ne
    · exact .inr unpub
  · -- The page of a buffer that is used up goes to the reader's hand.
    rcases done.page with ⟨none_, kept⟩ | ⟨out, gone⟩
    · refine placed_congr inv.pages (fun k => ?_) (by rw [holds.2, none_, mine]; rfl) rfl
      rcases eq_or_ne k s.ring.head with rfl | ne
      · exact kept
      · exact congrArg Buffer.page (done.others k ne)
    obtain ⟨own, has⟩ := Option.ne_none_iff_exists'.mp (inv.ring.buffer_of_occupied (inv.ring.head_occupied occupied)).page
    have eq : places ring (.reading (.afterBuffer requested (committed + chunk) page)) s.writerPc =
        update (update (places s.ring s.readerPc s.writerPc) (.slot s.ring.head) none) .reader (some own) := by
      funext spot
      cases spot with
      | slot k =>
        rw [update_of_ne (show Spot.slot k ≠ .reader from nofun)]
        rcases eq_or_ne k s.ring.head with rfl | ne
        · rw [update_self]
          exact gone
        · rw [update_of_ne (fun eq => ne (Spot.slot.inj eq))]
          exact congrArg Buffer.page (done.others k ne)
      | reader => rw [places, holds.2, out, has, update_self]
      | writer => rfl
    rw [eq]
    exact inv.pages.move has (by rw [mine]; rfl)
  · dsimp only [goto]
    rw [inv.fifo, done.content, append_assoc, ← copied]

theorem Inv.releaseReader {requested done page : Nat} (was : s.pcs t = .reading (.release requested done page)) :
    ∃ s', s.releasePage t page (.reading (.next requested done)) = some s' ∧ s'.Inv := by
  obtain ⟨mine, reader⟩ := inv.readerIs was rfl
  have held : places s.ring s.readerPc s.writerPc .reader = some page := by rw [places, mine]; rfl
  unfold releasePage
  rw [if_pos (inv.pages.owned_of held)]
  refine ⟨_, rfl, inv.nextReader was (by trivial) ⟨rfl, rfl⟩ ⟨rfl, rfl⟩ rfl rfl rfl inv.ring reader inv.writer
    inv.spare ?_ inv.fifo ⟨rfl, rfl, rfl⟩⟩
  have eq : places s.ring (.reading (.next requested done)) s.writerPc = update (places s.ring s.readerPc s.writerPc) .reader none := by
    funext spot
    cases spot <;> rfl
  dsimp only [goto]
  rw [eq]
  exact inv.pages.release held

theorem Inv.readCheck (was : s.pcs t = .reading (.check n nonblock))
    (ran : s.readStep t (.check n nonblock) .go = some res) : ∃ s', res = some s' ∧ s'.Inv := by
  have asked := inv.asks t
  rw [was] at asked
  have mine : s.readerPc = _ := (inv.readerPc_eq (by rw [was]; rfl)).trans was
  have unread := inv.reader
  rw [mine] at unread
  dsimp only [State.readStep] at ran
  have bounds : (if n < s.ring.bytes then n else s.ring.bytes) ≤ s.ring.bytes ∧
      ((if n < s.ring.bytes then n else s.ring.bytes) = 0 → s.ring.bytes = 0) := by
    have some_ : n ≠ 0 := asked
    split <;> omega
  generalize (if n < s.ring.bytes then n else s.ring.bytes) = requested at ran bounds
  split at ran
  · cases ran
    exact ⟨_, rfl, inv.readOn was (by trivial) ⟨rfl, rfl⟩ ⟨rfl, rfl⟩ s.readSlot
      ⟨unread, Nat.zero_le _, by rw [Nat.zero_add]; exact bounds.1⟩ ⟨rfl, rfl⟩⟩
  rename_i none_
  have empty := bounds.2 (not_not.mp none_)
  split at ran
  · cases ran
    exact ⟨_, rfl, inv.readOn was (by trivial) ⟨rfl, rfl⟩ ⟨rfl, rfl⟩ s.readSlot unread ⟨rfl, rfl⟩⟩
  rename_i open_
  split at ran
  · cases ran
    exact ⟨_, rfl, inv.readOn was (by trivial) ⟨rfl, rfl⟩ ⟨rfl, rfl⟩ s.readSlot unread ⟨rfl, rfl⟩⟩
  rw [if_neg (by simp [empty, open_])] at ran
  cases ran
  exact ⟨_, rfl, inv.readOn was (by exact asked) ⟨rfl, rfl⟩ ⟨rfl, rfl⟩ s.readSlot unread ⟨rfl, rfl⟩⟩

theorem Inv.readNext (was : s.pcs t = .reading (.next requested done))
    (ran : s.readStep t (.next requested done) .go = some res) : ∃ s', res = some s' ∧ s'.Inv := by
  obtain ⟨_, reader⟩ := inv.readerIs was rfl
  obtain ⟨unread, lo, enough⟩ := reader
  dsimp only [State.readStep] at ran
  split at ran
  · cases ran
    exact ⟨_, rfl, inv.readOn was (by trivial) ⟨rfl, rfl⟩ ⟨rfl, rfl⟩ s.readSlot unread ⟨rfl, rfl⟩⟩
  split at ran
  · cases ran
    exact ⟨_, rfl, inv.readOn was (by trivial) ⟨rfl, rfl⟩ ⟨rfl, rfl⟩ s.readSlot ⟨unread, lo, enough⟩ ⟨rfl, rfl⟩⟩
  rename_i free
  -- Bytes that are still asked for are in some buffer, so the queue is not empty.
  have some_ : s.ring.slots ≠ 0 := fun none_ => by
    have bytes := inv.ring.bytes
    rw [Ring.queue, none_] at bytes
    simp [window] at bytes
    omega
  have first := inv.ring.buffer_of_occupied (inv.ring.head_occupied some_)
  rw [if_neg (by have := first.some; omega)] at ran
  cases ran
  refine ⟨_, rfl, inv.readOn was (by trivial) ⟨rfl, rfl⟩ ⟨rfl, rfl⟩ _ ⟨⟨rfl, free, rfl, some_⟩, ⟨rfl, ?_⟩, ⟨?_, enough⟩,
    Nat.zero_le _, rfl⟩ ⟨rfl, rfl⟩⟩
  · dsimp only
    split <;> omega
  · split <;> omega

theorem Inv.readYields (was : s.pcs t = .reading (.yields requested done))
    (ran : s.readStep t (.yields requested done) .go = some res) : ∃ s', res = some s' ∧ s'.Inv := by
  have mine : s.readerPc = _ := (inv.readerPc_eq (by rw [was]; rfl)).trans was
  have both : s.writerPc = _ := (inv.writerPc_eq (by rw [was]; rfl)).trans was
  have locked := (inv.read t).mpr (by rw [was]; rfl)
  have reader := inv.reader
  have writer := inv.writer
  rw [mine] at reader
  rw [both] at writer
  cases ran
  refine ⟨_, rfl, inv.next was rfl trivial (fun _ => .inr rfl) (fun holds => by cases holds) locked rfl rfl rfl inv.ring reader
    writer ?_ ?_ inv.fifo ?_⟩
  · have spare := inv.spare
    rw [both] at spare
    exact spare
  · have pages := inv.pages
    rw [mine, both] at pages
    exact pages
  · have acc := inv.account
    rw [mine] at acc
    exact acc

theorem Inv.readCopyOut (was : s.pcs t = .reading (.copy requested done slot offset chunk got))
    (ran : s.readStep t (.copy requested done slot offset chunk got) .copyOut = some res) : ∃ s', res = some s' ∧ s'.Inv := by
  obtain ⟨_, reader⟩ := inv.readerIs was rfl
  obtain ⟨pos, ⟨from_, fits⟩, asked, _, copied⟩ := reader
  dsimp only [State.readStep] at ran
  split at ran
  next more =>
    obtain ⟨_, has⟩ := Option.ne_none_iff_exists'.mp (inv.ring.buffer_of_occupied (pos.2.2.1 ▸ inv.ring.head_occupied pos.2.2.2)).page
    rw [has] at ran
    cases ran
    refine ⟨_, rfl, inv.readOn was (by trivial) ⟨rfl, rfl⟩ ⟨rfl, rfl⟩ s.readSlot ⟨pos, ⟨from_, fits⟩, asked, ?_, ?_⟩ ⟨rfl, rfl⟩⟩
    · rw [length_append]
      exact more
    have lt : got.length < (s.ring.buffers slot).length := lt_of_lt_of_le more fits
    rw [length_append, length_singleton, take_add_one, ← copied, Buffer.contents, getElem?_map, getElem?_range lt, has, from_]
    rfl
  · cases ran

theorem Inv.readStep (was : s.pcs t = .reading p) (ran : s.readStep t p action = some res) : ∃ s', res = some s' ∧ s'.Inv := by
  have asked := inv.asks t
  rw [was] at asked
  unfold State.readStep at ran
  split at ran
  · -- lock
    split at ran
    next free =>
      cases ran
      exact ⟨_, rfl, inv.takeRead was free asked ⟨rfl, rfl⟩ rfl id rfl rfl⟩
    · cases ran
  · exact inv.readCheck was ran
  · -- parking
    cases ran
    exact ⟨_, rfl, inv.dropRead was rfl asked rfl ⟨rfl, rfl⟩ id rfl rfl⟩
  · -- parked
    cases ran
    rename_i signalled
    cases signalled with
    | true => exact ⟨_, rfl, inv.outside was rfl rfl trivial ⟨rfl, rfl⟩⟩
    | false => exact ⟨_, rfl, inv.outside was rfl rfl asked ⟨rfl, rfl⟩⟩
  · exact inv.readNext was ran
  · -- waits
    split at ran
    next free =>
      cases ran
      exact ⟨_, rfl, inv.takeWrite was free trivial ⟨rfl, rfl⟩ id id ⟨rfl, rfl⟩ rfl rfl⟩
    · cases ran
  · exact inv.readYields was ran
  · exact inv.readCopyOut was ran
  · -- fault
    cases ran
    refine ⟨_, rfl, inv.readOn was (by trivial) ⟨rfl, rfl⟩ ⟨rfl, rfl⟩ none ?_ ⟨rfl, rfl⟩⟩
    exact rfl
  · -- the bytes are taken
    split at ran
    next all =>
      obtain ⟨_, _, out, kept⟩ := inv.consume was all
      rw [out] at ran
      cases ran
      exact ⟨_, rfl, kept⟩
    · cases ran
  · -- release
    cases ran
    obtain ⟨s', freed, kept⟩ := inv.releaseReader was
    exact ⟨s', freed, kept⟩
  · -- done
    cases ran
    exact ⟨_, rfl, inv.dropRead was rfl trivial rfl ⟨rfl, rfl⟩ id rfl rfl⟩
  · cases ran

end
end State
end BoarOS.Pipe
