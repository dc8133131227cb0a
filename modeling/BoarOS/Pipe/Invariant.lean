import BoarOS.Data.Placement
import BoarOS.Pipe.Queue

namespace BoarOS.Pipe
open Function
open Data

/-! # What holds between the steps of readers, writers and resizes -/

variable {s s' : State} {t : Nat} {pc : Pc} {fragment : Fragment} {slot : Nat}

def Pc.holdsRead : Pc → Bool
  | .reading (.lock ..) | .reading (.parked ..) | .resizing (.check _) | .resizing (.read _) => false
  | .reading _ | .resizing _ => true
  | _ => false

def Pc.holdsWrite : Pc → Bool
  | .reading (.yields ..) => true
  | .writing (.lock _) | .writing (.parked _) => false
  | .writing _ => true
  | .resizing (.both _) | .resizing (.charged ..) | .resizing (.revert ..) | .resizing (.done _) => true
  | _ => false

def Pc.Asks : Pc → Prop
  | .reading (.lock count _) | .reading (.check count _) | .reading (.parking count _) | .reading (.parked count _) =>
    count ≠ 0
  | _ => True

/-- The holder of a lock is the thread that its program counter says. -/
def Holder (holds : Pc → Bool) (lock : Option Nat) (pcs : Nat → Pc) : Prop := ∀ t, lock = some t ↔ holds (pcs t) = true

def holderPc (lock : Option Nat) (pcs : Nat → Pc) : Pc :=
  match lock with
  | some t => pcs t
  | none => .idle (.bytes 0)

def nextLock (holds : Pc → Bool) (lock : Option Nat) (t : Nat) (before pc : Pc) : Option Nat :=
  if holds pc then some t else if holds before then none else lock

def nextHolderPc (holds : Pc → Bool) (holder before pc : Pc) : Pc :=
  if holds pc then pc else if holds before then .idle (.bytes 0) else holder

theorem Holder.next (holder : Holder holds lock pcs) (free : holds pc = true → lock = none ∨ lock = some t) :
    Holder holds (nextLock holds lock t (pcs t) pc) (update pcs t pc) ∧
      holderPc (nextLock holds lock t (pcs t) pc) (update pcs t pc) = nextHolderPc holds (holderPc lock pcs) (pcs t) pc := by
  unfold nextLock nextHolderPc
  by_cases taken : holds pc = true
  · rw [if_pos taken, if_pos taken]
    refine ⟨fun u => ?_, by rw [holderPc, update_self]⟩
    rcases eq_or_ne u t with rfl | other
    · simp [taken]
    rw [update_of_ne other, ← holder u]
    rcases free taken with none | mine
    · simp [none, other.symm]
    · simp [mine]
  rw [if_neg taken, if_neg taken]
  by_cases held : holds (pcs t) = true
  · rw [if_pos held, if_pos held]
    refine ⟨fun u => ?_, rfl⟩
    have mine := (holder t).mpr held
    rcases eq_or_ne u t with rfl | other
    · simp [taken]
    rw [update_of_ne other, ← holder u, mine]
    simp [other.symm]
  rw [if_neg held, if_neg held]
  have foreign : lock ≠ some t := fun mine => held ((holder t).mp mine)
  refine ⟨fun u => ?_, ?_⟩
  · rcases eq_or_ne u t with rfl | other
    · simp [taken, foreign]
    · rw [update_of_ne other, ← holder u]
  cases lock with
  | none => rfl
  | some u =>
    have other : u ≠ t := fun eq => foreign (by rw [eq])
    exact update_of_ne other ..

namespace State

def readerPc (s : State) : Pc := holderPc s.readLock s.pcs
def writerPc (s : State) : Pc := holderPc s.writeLock s.pcs

/-- The reader copies from the first buffer, which nobody extends, and has enough bytes left for what it was asked. -/
def ReaderOk (s : State) : Pc → Prop
  | .reading (.copy requested committed slot offset chunk got) =>
    (s.readSlot = some slot ∧ s.mergeSlot ≠ some slot ∧ slot = s.ring.head ∧ s.ring.slots ≠ 0) ∧
      (offset = (s.ring.buffers slot).offset ∧ chunk ≤ (s.ring.buffers slot).length) ∧
      (committed + chunk ≤ requested ∧ requested ≤ committed + s.ring.bytes) ∧
      got.length ≤ chunk ∧ got = ((s.ring.buffers slot).contents s.memory).take got.length
  | .reading (.next requested committed) | .reading (.waits requested committed)
  | .reading (.yields requested committed) | .reading (.release requested committed _) =>
    s.readSlot = none ∧ committed ≤ requested ∧ requested ≤ committed + s.ring.bytes
  | _ => s.readSlot = none

theorem ReaderOk.frame (ok : s.ReaderOk pc) (readSlot : s'.readSlot = s.readSlot)
    (bytes : s.ring.bytes ≤ s'.ring.bytes) (head : s'.ring.head = s.ring.head)
    (kept : s.readSlot = some s.ring.head → s.ring.slots ≠ 0 → s.mergeSlot ≠ some s.ring.head →
      s'.mergeSlot ≠ some s.ring.head ∧ s'.ring.slots ≠ 0 ∧ s'.ring.buffers s.ring.head = s.ring.buffers s.ring.head ∧
        (s.ring.buffers s.ring.head).contents s'.memory = (s.ring.buffers s.ring.head).contents s.memory) : s'.ReaderOk pc := by
  unfold ReaderOk at ok ⊢
  split at ok
  · obtain ⟨⟨reading, free, here, some⟩, ⟨offset, chunk⟩, ⟨asked, _⟩, less, got⟩ := ok
    obtain ⟨free', some', buf, contents⟩ := kept (by rw [reading, here]) some (by rwa [← here])
    rw [← here] at free' buf contents
    refine ⟨⟨readSlot.trans reading, free', here.trans head.symm, some'⟩, ?_, ⟨asked, by omega⟩, less, ?_⟩
    · rw [buf]
      exact ⟨offset, chunk⟩
    · rw [buf, contents]
      exact got
  all_goals first | exact ⟨readSlot.trans ok.1, ok.2.1, by have := ok.2.2; omega⟩ | exact readSlot.trans ok

def hand : Pc → Option Nat
  | .reading (.release _ _ page) | .writing (.store _ _ page) | .writing (.drop page _) => some page
  | _ => none

inductive Spot where
  | slot (k : Nat)
  | reader
  | writer
deriving DecidableEq

def places (ring : Ring) (reader writer : Pc) : Spot → Option Nat
  | .slot k => (ring.buffers k).page
  | .reader => hand reader
  | .writer => hand writer

/-- The pages stay placed when no slot and no hand changes its page. -/
theorem placed_congr {ring ring' : Ring} {reader reader' writer writer' : Pc} {owned : Nat → Bool}
    (placed : Placed (places ring reader writer) owned) (slots : ∀ k, (ring'.buffers k).page = (ring.buffers k).page)
    (read : hand reader' = hand reader) (write : hand writer' = hand writer) : Placed (places ring' reader' writer') owned := by
  have eq : places ring' reader' writer' = places ring reader writer := by
    funext spot
    cases spot with
    | slot k => exact slots k
    | reader => exact read
    | writer => exact write
  exact eq ▸ placed

theorem places_writer (pre : Pc) {ring : Ring} {reader : Pc} :
    places ring reader pc = update (places ring reader pre) .writer (hand pc) := by
  funext spot
  cases spot <;> rfl

variable [PageGeometry]

/-- The fragment is behind the bytes of the last buffer, or a whole slot behind the queue. -/
def FragmentOk (s : State) (fragment : Fragment) : Prop :=
  0 < fragment.chunk ∧ if fragment.merging then
      s.ring.slots ≠ 0 ∧ fragment.slot = s.ring.last ∧ s.mergeSlot = some fragment.slot ∧
        fragment.offset = (s.ring.buffers s.ring.last).offset + (s.ring.buffers s.ring.last).length ∧
        fragment.offset + fragment.chunk ≤ pageSize
    else
      s.ring.slots < s.ring.size ∧ fragment.slot = s.ring.tail ∧ s.mergeSlot = none ∧ fragment.offset = 0 ∧ fragment.chunk ≤ pageSize

def WriterOk (s : State) : Pc → Prop
  | .writing (.page _ fragment) =>
    s.FragmentOk fragment ∧ (fragment.merging = false → (s.ring.buffers fragment.slot).page = none)
  | .writing (.store _ fragment _) =>
    s.FragmentOk fragment ∧ fragment.merging = false ∧ (s.ring.buffers fragment.slot).page = none
  | .writing (.copy _ fragment put) =>
    s.FragmentOk fragment ∧ ∃ page, (s.ring.buffers fragment.slot).page = some page ∧ put.length ≤ fragment.chunk ∧
      put = (List.range put.length).map fun j => s.memory page (fragment.offset + j)
  | _ => s.mergeSlot = none

def stored : Pc → Option Nat
  | .writing (.copy _ fragment _) => if fragment.merging then none else some fragment.slot
  | _ => none

def charged (ring : Ring) : Pc → Nat
  | .resizing (.charged call _) | .resizing (.revert call _) => call.nr
  | _ => ring.size

structure Inv (s : State) : Prop where
  read : Holder Pc.holdsRead s.readLock s.pcs
  write : Holder Pc.holdsWrite s.writeLock s.pcs
  asks : ∀ t, (s.pcs t).Asks
  ring : s.ring.Ok
  reader : s.ReaderOk s.readerPc
  writer : s.WriterOk s.writerPc
  spare : ∀ k, (s.ring.buffers k).page ≠ none → s.ring.Occupied k ∨ stored s.writerPc = some k
  pages : Placed (places s.ring s.readerPc s.writerPc) s.owned
  fifo : s.accepted = s.returned ++ s.ring.content s.memory
  account : s.account = s.others + charged s.ring s.readerPc ∧ s.others + 2 ^ 32 ≤ uint64Max

theorem Inv.next (inv : s.Inv) {pre : Pc} (was : s.pcs t = pre) (pcs : s'.pcs = update s.pcs t pc) (asks : pc.Asks)
    (readFree : pc.holdsRead = true → s.readLock = none ∨ pre.holdsRead = true)
    (writeFree : pc.holdsWrite = true → s.writeLock = none ∨ pre.holdsWrite = true)
    (readLock : s'.readLock = nextLock Pc.holdsRead s.readLock t pre pc)
    (writeLock : s'.writeLock = nextLock Pc.holdsWrite s.writeLock t pre pc) {reader writer : Pc}
    (readerPc : nextHolderPc Pc.holdsRead s.readerPc pre pc = reader)
    (writerPc : nextHolderPc Pc.holdsWrite s.writerPc pre pc = writer) (ring : s'.ring.Ok) (readerOk : s'.ReaderOk reader)
    (writerOk : s'.WriterOk writer) (spare : ∀ k, (s'.ring.buffers k).page ≠ none → s'.ring.Occupied k ∨ stored writer = some k)
    (pages : Placed (places s'.ring reader writer) s'.owned) (fifo : s'.accepted = s'.returned ++ s'.ring.content s'.memory)
    (acc : s'.account = s'.others + charged s'.ring reader ∧ s'.others + 2 ^ 32 ≤ uint64Max) : s'.Inv := by
  subst was
  obtain ⟨read, readHolder⟩ := inv.read.next fun holds => (readFree holds).imp_right (inv.read t).mpr
  obtain ⟨write, writeHolder⟩ := inv.write.next fun holds => (writeFree holds).imp_right (inv.write t).mpr
  rw [← readLock, ← pcs] at read readHolder
  rw [← writeLock, ← pcs] at write writeHolder
  have isReader : s'.readerPc = reader := readHolder.trans readerPc
  have isWriter : s'.writerPc = writer := writeHolder.trans writerPc
  refine ⟨read, write, fun u => ?_, ring, by rwa [isReader], by rwa [isWriter],
    by rwa [isWriter], by rwa [isReader, isWriter], fifo, by rwa [isReader]⟩
  rw [pcs]
  rcases eq_or_ne u t with rfl | ne
  · rw [update_self]
    exact asks
  · rw [update_of_ne ne]
    exact inv.asks u

theorem Inv.readerPc_eq (inv : s.Inv) (holds : (s.pcs t).holdsRead = true) : s.readerPc = s.pcs t := by
  rw [readerPc, (inv.read t).mpr holds, holderPc]

theorem Inv.writerPc_eq (inv : s.Inv) (holds : (s.pcs t).holdsWrite = true) : s.writerPc = s.pcs t := by
  rw [writerPc, (inv.write t).mpr holds, holderPc]

theorem Inv.readerIs (inv : s.Inv) (was : s.pcs t = pc) (holds : pc.holdsRead = true) : s.readerPc = pc ∧ s.ReaderOk pc := by
  have mine : s.readerPc = pc := by rw [inv.readerPc_eq (by rw [was, holds]), was]
  exact ⟨mine, mine ▸ inv.reader⟩

theorem Inv.writerIs (inv : s.Inv) (was : s.pcs t = pc) (holds : pc.holdsWrite = true) : s.writerPc = pc ∧ s.WriterOk pc := by
  have mine : s.writerPc = pc := by rw [inv.writerPc_eq (by rw [was, holds]), was]
  exact ⟨mine, mine ▸ inv.writer⟩

theorem FragmentOk.frame (ok : s.FragmentOk fragment) (mergeSlot : s'.mergeSlot = s.mergeSlot)
    (size : s'.ring.size = s.ring.size) (tail : s'.ring.tail = s.ring.tail) (last : s.ring.slots ≠ 0 → s.mergeSlot = some s.ring.last →
      s'.ring.slots ≠ 0 ∧ s'.ring.buffers s.ring.last = s.ring.buffers s.ring.last)
    (room : s.ring.slots < s.ring.size → s'.ring.slots < s.ring.size) : s'.FragmentOk fragment := by
  have eq : s'.ring.last = s.ring.last := by rw [Ring.last, Ring.last, size, tail]
  obtain ⟨some, ok⟩ := ok
  refine ⟨some, ?_⟩
  split at ok
  next merging =>
    obtain ⟨occupied, slot, marked, offset, fits⟩ := ok
    obtain ⟨occupied', buf⟩ := last occupied (by rw [marked, slot])
    rw [if_pos merging, eq, buf]
    exact ⟨occupied', slot, mergeSlot.trans marked, offset, fits⟩
  rename_i new
  obtain ⟨free, slot, marked, offset, fits⟩ := ok
  rw [if_neg new, size, tail]
  exact ⟨room free, slot, mergeSlot.trans marked, offset, fits⟩

theorem WriterOk.frame (ok : s.WriterOk pc) (mergeSlot : s'.mergeSlot = s.mergeSlot) (memory : s'.memory = s.memory)
    (size : s'.ring.size = s.ring.size) (tail : s'.ring.tail = s.ring.tail) (last : s.ring.slots ≠ 0 → s.mergeSlot = some s.ring.last →
      s'.ring.slots ≠ 0 ∧ s'.ring.buffers s.ring.last = s.ring.buffers s.ring.last)
    (room : s.ring.slots < s.ring.size → s'.ring.slots < s.ring.size ∧ s'.ring.buffers s.ring.tail = s.ring.buffers s.ring.tail) :
    s'.WriterOk pc := by
  have buf : ∀ fragment, s.FragmentOk fragment → s'.ring.buffers fragment.slot = s.ring.buffers fragment.slot := fun fragment ok => by
    obtain ⟨_, ok⟩ := ok
    split at ok
    · rw [ok.2.1]
      exact (last ok.1 (by rw [ok.2.2.1, ok.2.1])).2
    · rw [ok.2.1]
      exact (room ok.1).2
  have keep := fun fragment (ok : s.FragmentOk fragment) =>
    FragmentOk.frame ok mergeSlot size tail last fun free => (room free).1
  unfold WriterOk at ok ⊢
  split at ok
  · rw [buf _ ok.1]
    exact ⟨keep _ ok.1, ok.2⟩
  · rw [buf _ ok.1]
    exact ⟨keep _ ok.1, ok.2⟩
  · rw [buf _ ok.1, memory]
    exact ⟨keep _ ok.1, ok.2⟩
  · exact mergeSlot.trans ok

end State
end BoarOS.Pipe
