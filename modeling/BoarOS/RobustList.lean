import Mathlib.Tactic

namespace BoarOS.RobustList
open Function List Prod

/-! # The robust-list walk of an exiting task (`kernel/sched/futex.c`, `kernel/sched/futex_pi.c`)

Memory is its aligned words; nobody else writes while the task walks. -/

def futexWaiters : BitVec 32 := 0x80000000
def futexOwnerDied : BitVec 32 := 0x40000000
def futexTidMask : BitVec 32 := 0x3fffffff
def robustListLimit : Nat := 2048

/-- The word of byte `a` is `a / 4`. -/
abbrev Memory := Nat → BitVec 32

/-- What the task may access: `limit` is `ARCH_MMU_USER_LIMIT`, the pages that can be pinned are given by their number,
and `prepares` says for which words `futex_prepare` succeeds. -/
structure Space where
  live : Bool
  limit : Nat
  readable : Nat → Bool
  writable : Nat → Bool
  prepares : Nat → Bool

/-- `wakes` are the calls of `futex_wake_user`. -/
structure State where
  memory : Memory
  wakes : List Nat

section
variable (space : Space)

def rangeCheck (address size : Nat) : Bool := address < space.limit && size ≤ space.limit - address
def byte (memory : Memory) (a : Nat) : Nat := (memory (a / 4)).toNat / 256 ^ (a % 4) % 256

def robustReadU64 (memory : Memory) (address : Nat) : Option Nat :=
  if rangeCheck space address 8 && space.readable (address / 4096) && space.readable ((address + 7) / 4096) then
    some ((range 8).map fun i => byte memory (address + i) * 256 ^ i).sum
  else none

def robustWordAddress (entry : Nat) (offset : Int) : Option Nat :=
  let sum := entry + offset
  if sum < 0 ∨ sum ≥ 2 ^ 64 then none
  else if sum.toNat % 4 = 0 ∧ rangeCheck space sum.toNat 4 then some sum.toNat else none

def readWord (memory : Memory) (address : Nat) : Option (BitVec 32) :=
  if rangeCheck space address 4 && space.readable (address / 4096) then some (memory (address / 4)) else none

def userCmpxchg (memory : Memory) (address : Nat) (expected desired : BitVec 32) : Option (BitVec 32 × Memory) :=
  if address % 4 = 0 ∧ rangeCheck space address 4 ∧ space.writable (address / 4096) then
    let seen := memory (address / 4)
    some (seen, if seen = expected then update memory (address / 4) desired else memory)
  else none

def died (value : BitVec 32) : BitVec 32 := (value &&& futexWaiters) ||| futexOwnerDied
def wake (address : Nat) (s : State) : State := { s with wakes := s.wakes ++ [address] }

variable (tid : BitVec 32)

def releaseAttempts (pending : Bool) (address : Nat) : Nat → State → Bool × State
  | 0, s => (false, s)
  | attempts + 1, s =>
    match readWord space s.memory address with
    | none => (false, s)
    | some value =>
      if value &&& futexTidMask ≠ tid then
        (true, if pending ∧ (value &&& futexTidMask = 0 ∨ value &&& futexWaiters = 0) then wake address s else s)
      else match userCmpxchg space s.memory address value (died value) with
        | none => (false, s)
        | some (observed, memory) =>
          if observed ≠ value then releaseAttempts pending address attempts { s with memory := memory }
          else (true, if value &&& futexWaiters ≠ 0 then wake address { s with memory := memory }
            else { s with memory := memory })

def robustReleaseWord (pending : Bool) (entry : Nat) (offset : Int) (s : State) : Bool × State :=
  match robustWordAddress space entry offset with
  | none => (false, s)
  | some address => releaseAttempts space tid pending address 32 s

def piAttempts (address : Nat) : Nat → BitVec 32 → Memory → Bool × Memory
  | 0, _, memory => (false, memory)
  | attempts + 1, value, memory =>
    if value &&& futexTidMask ≠ tid then (true, memory)
    else if memory (address / 4) = value then (true, update memory (address / 4) (died value))
    else piAttempts address attempts (memory (address / 4)) memory

def kernelFutexPiRobust (address : Nat) (s : State) : Bool × State :=
  if space.prepares address = false then (false, s)
  else
    let (done, memory) := piAttempts tid address 32 (s.memory (address / 4)) s.memory
    (done, { s with memory := memory })

def clear (entry : Nat) : Nat := entry - entry % 2

def releaseEntry (pending : Bool) (entry : Nat) (offset : Int) (s : State) : Bool × State :=
  if entry % 2 = 1 then
    match robustWordAddress space (clear entry) offset with
    | none => (false, s)
    | some address => kernelFutexPiRobust space tid address s
  else robustReleaseWord space tid pending (clear entry) offset s

def walk (head : Nat) (offset : Int) (pending : Nat) : Nat → Nat → State → Bool × State
  | limit, entry, s =>
    if clear entry = head then (true, s)
    else match limit with
      | 0 => (true, s)
      | limit + 1 =>
        match robustReadU64 space s.memory (clear entry) with
        | none => (false, s)
        | some next =>
          if clear entry = clear pending then walk head offset pending limit next s
          else
            let (ok, s) := releaseEntry space tid false entry offset s
            if ok then walk head offset pending limit next s else (false, s)

/-- The three fields of the head: the first entry, the offset and the pending entry. -/
def readHead (memory : Memory) (head : Nat) : Option (Nat × Int × Nat) :=
  if head = 0 ∨ space.live = false ∨ rangeCheck space head 24 = false then none
  else do
    let entry ← robustReadU64 space memory head
    let offset ← robustReadU64 space memory (head + 8)
    let pending ← robustReadU64 space memory (head + 16)
    some (entry, if offset < 2 ^ 63 then offset else offset - 2 ^ 64, pending)

def robustWords (head : Nat) (s : State) : State :=
  match readHead space s.memory head with
  | none => s
  | some (entry, offset, pending) =>
    let (ended, s) := walk space tid head offset pending robustListLimit entry s
    if ended = false ∨ clear pending = 0 then s else (releaseEntry space tid true pending offset s).2

end

/-- A plain word that cannot be read, or that is the dying task's and cannot be written. -/
def Barred (space : Space) (tid : BitVec 32) (memory : Memory) (a : Nat) : Prop :=
  space.readable (a / 4096) = false ∨ memory (a / 4) &&& futexTidMask = tid ∧ space.writable (a / 4096) = false

/-- The entries at which a walk gives up, told from the access rights and the memory alone: the word lies outside the
user's range, or it is a PI word that cannot be prepared, or a plain one that is barred. -/
def Refused (space : Space) (tid : BitVec 32) (memory : Memory) (entry : Nat) (offset : Int) : Prop :=
  ∀ a, robustWordAddress space (clear entry) offset = some a →
    if entry % 2 = 1 then space.prepares a = false else Barred space tid memory a

def releaseAll (tid : BitVec 32) (memory : Memory) (words : List Nat) : Memory := fun w =>
  if memory w &&& futexTidMask = tid ∧ w ∈ words.map (· / 4) then died (memory w) else memory w

theorem died_tid (value : BitVec 32) : died value &&& futexTidMask = 0 := by
  rw [died, BitVec.and_or_distrib_right, BitVec.and_assoc, show futexWaiters &&& futexTidMask = 0#32 by decide,
    show futexOwnerDied &&& futexTidMask = 0#32 by decide, BitVec.and_zero, BitVec.or_zero]
  rfl

variable {space : Space} {tid : BitVec 32} {memory : Memory} {s s' : State} {ws : List (Nat × Bool)} {a : Nat}

theorem releaseAll_append (thread : tid ≠ 0) (words : List Nat) : releaseAll tid memory (words ++ [a]) =
    if releaseAll tid memory words (a / 4) &&& futexTidMask = tid then
      update (releaseAll tid memory words) (a / 4) (died (releaseAll tid memory words (a / 4)))
    else releaseAll tid memory words := by
  funext w
  by_cases here : w = a / 4
  · subst here
    by_cases mine : memory (a / 4) &&& futexTidMask = tid
    · by_cases done : a / 4 ∈ words.map (· / 4)
      · simp only [releaseAll, map_append, mem_append, mine, done, true_or, and_self, if_true, died_tid, if_neg thread.symm]
      · simp [releaseAll, mine, done]
    · simp [releaseAll, mine]
  · have same : releaseAll tid memory (words ++ [a]) w = releaseAll tid memory words w := by simp [releaseAll, here]
    rw [same]
    split
    · rw [update_of_ne here]
    · rfl

/-- What the words handled so far have left in memory, and whom they woke. -/
structure Progress (tid : BitVec 32) (memory : Memory) (ws : List (Nat × Bool)) (s : State) : Prop where
  written : s.memory = releaseAll tid memory (ws.map Prod.fst)
  aligned : ∀ p ∈ ws, p.1 % 4 = 0
  fresh : ∀ a, a ∉ ws.map Prod.fst → a ∉ s.wakes
  woken : ∀ a, ws.find? (·.1 = a) = some (a, false) → memory (a / 4) &&& futexTidMask = tid →
    memory (a / 4) &&& futexWaiters ≠ 0 → s.wakes.count a = 1

namespace Progress
variable {pi : Bool} (progress : Progress tid memory ws s)
include progress

theorem unhandled (word : a % 4 = 0) (out : a ∉ ws.map fst) : s.memory (a / 4) = memory (a / 4) := by
  rw [progress.written, releaseAll, if_neg]
  rintro ⟨_, mem⟩
  obtain ⟨_, mem, _⟩ := mem_map.mp mem
  obtain ⟨p, listed, rfl⟩ := mem_map.mp mem
  have aligned := progress.aligned p listed
  exact out (show p.1 = a by omega ▸ mem)

theorem handled (thread : tid ≠ 0) (mem : a ∈ ws.map fst) : s.memory (a / 4) &&& futexTidMask ≠ tid := by
  rw [progress.written]
  unfold releaseAll
  split
  · rw [died_tid]
    exact thread.symm
  next out =>
    exact fun mine => out ⟨mine, mem_map.mpr ⟨a, mem, rfl⟩⟩

theorem add (word : a % 4 = 0) (now : s'.memory = releaseAll tid memory (ws.map fst ++ [a]))
    (wakes : s'.wakes = s.wakes ∨ s'.wakes = s.wakes ++ [a])
    (kept : a ∈ ws.map fst → s'.wakes = s.wakes)
    (one : pi = false → s.memory (a / 4) &&& futexTidMask = tid → s.memory (a / 4) &&& futexWaiters ≠ 0 →
      s'.wakes = s.wakes ++ [a]) : Progress tid memory (ws ++ [(a, pi)]) s' where
  written := by
    rw [now, map_append]
    rfl
  aligned p mem := by
    rcases mem_append.mp mem with mem | mem
    · exact progress.aligned p mem
    rw [mem_singleton.mp mem]
    exact word
  fresh b out := by
    rw [map_append, mem_append, not_or] at out
    have ne : b ≠ a := fun eq => out.2 (eq ▸ mem_singleton.mpr rfl)
    have old := progress.fresh b out.1
    rcases wakes with eq | eq
    · exact eq ▸ old
    rw [eq, mem_append, mem_singleton]
    exact not_or.mpr ⟨old, ne⟩
  woken b plain owned waiters := by
    rw [find?_append, Option.or_eq_some_iff] at plain
    rcases plain with plain | ⟨out, last⟩
    · have old := progress.woken b plain owned waiters
      by_cases eq : b = a
      · subst eq
        rw [kept (mem_map.mpr ⟨_, mem_of_find?_eq_some plain, rfl⟩)]
        exact old
      rcases wakes with same | more
      · exact same ▸ old
      · rw [more, count_append, old, count_eq_zero.mpr fun mem => eq (mem_singleton.mp mem)]
    rw [find?_singleton, Option.ite_none_right_eq_some] at last
    cases last.2
    have before : a ∉ ws.map fst := by
      intro mem
      obtain ⟨p, listed, eq⟩ := mem_map.mp mem
      exact find?_eq_none.mp out p listed (decide_eq_true eq)
    have value := progress.unhandled word before
    rw [one rfl (value ▸ owned) (value ▸ waiters), count_append, count_eq_zero.mpr (progress.fresh a before), count_singleton_self]

theorem next (thread : tid ≠ 0) : releaseAll tid memory (ws.map fst ++ [a]) =
    if s.memory (a / 4) &&& futexTidMask = tid then update s.memory (a / 4) (died (s.memory (a / 4)))
    else s.memory := by
  rw [releaseAll_append thread, progress.written]

theorem attempts (space : Space) (thread : tid ≠ 0) (word : a % 4 = 0 ∧ rangeCheck space a 4 = true)
    (new : pending = true → a ∉ ws.map fst) :
    Barred space tid s.memory a ∧ releaseAttempts space tid pending a 32 s = (false, s) ∨
      ¬ Barred space tid s.memory a ∧
        ∃ s', releaseAttempts space tid pending a 32 s = (true, s') ∧ Progress tid memory (ws ++ [(a, false)]) s' := by
  have after := progress.next (a := a) thread
  unfold releaseAttempts readWord userCmpxchg Barred
  rw [word.2, Bool.true_and]
  cases readable : space.readable (a / 4096) with
  | false => exact .inl ⟨.inl rfl, rfl⟩
  | true =>
    rw [if_pos rfl]
    dsimp only
    by_cases mine : s.memory (a / 4) &&& futexTidMask = tid
    · rw [if_neg (not_not.mpr mine)]
      rw [if_pos mine] at after
      cases writable : space.writable (a / 4096) with
      | false => exact .inl ⟨.inr ⟨mine, rfl⟩, by simp⟩
      | true =>
        rw [if_pos ⟨word.1, rfl, rfl⟩]
        dsimp only
        rw [if_neg (not_not.mpr rfl), if_pos rfl]
        refine .inr ⟨by simp, _, rfl, progress.add word.1 ?_ ?_ (fun before => absurd mine (progress.handled thread before)) ?_⟩
        · rw [after]
          split <;> rfl
        · split
          · exact .inr rfl
          · exact .inl rfl
        · intro _ _ waiters
          rw [if_pos waiters]
          rfl
    · rw [if_pos mine]
      rw [if_neg mine] at after
      refine .inr ⟨by simp [mine], _, rfl, progress.add word.1 ?_ ?_ (fun before => ?_) fun _ owned => absurd owned mine⟩
      · rw [after]
        split <;> rfl
      · split
        · exact .inr rfl
        · exact .inl rfl
      · rw [if_neg fun wrong => new wrong.1 before]

theorem piRobust (space : Space) (thread : tid ≠ 0) (word : a % 4 = 0) :
    space.prepares a = false ∧ kernelFutexPiRobust space tid a s = (false, s) ∨
      space.prepares a ≠ false ∧
        ∃ s', kernelFutexPiRobust space tid a s = (true, s') ∧ Progress tid memory (ws ++ [(a, true)]) s' := by
  have after := progress.next (a := a) thread
  unfold kernelFutexPiRobust
  split
  next barred => exact .inl ⟨barred, rfl⟩
  rename_i prepared
  have eq : piAttempts tid a 32 (s.memory (a / 4)) s.memory = (true, releaseAll tid memory (ws.map fst ++ [a])) := by
    rw [piAttempts, after]
    by_cases mine : s.memory (a / 4) &&& futexTidMask = tid
    · rw [if_neg (not_not.mpr mine), if_pos rfl, if_pos mine]
    · rw [if_pos mine, if_neg mine]
  rw [eq]
  exact .inr ⟨prepared, _, rfl, progress.add word rfl (.inl rfl) (fun _ => rfl) nofun⟩

end Progress

theorem robustWordAddress_some (valid : robustWordAddress space entry offset = some a) :
    (a % 4 = 0 ∧ rangeCheck space a 4 = true) ∧ (a : Int) = entry + offset := by
  unfold robustWordAddress at valid
  dsimp only at valid
  split at valid
  · cases valid
  split at valid
  next fits =>
    cases valid
    exact ⟨fits, by omega⟩
  · cases valid

theorem Progress.entry (progress : Progress tid memory ws s) (thread : tid ≠ 0) (space : Space) (entry : Nat)
    (offset : Int) (pending : Bool) (new : pending = true → ∀ p ∈ ws, (p.1 : Int) ≠ clear entry + offset) :
    Refused space tid s.memory entry offset ∧ releaseEntry space tid pending entry offset s = (false, s) ∨
      ¬ Refused space tid s.memory entry offset ∧ ∃ a s', robustWordAddress space (clear entry) offset = some a ∧
        releaseEntry space tid pending entry offset s = (true, s') ∧ Progress tid memory (ws ++ [(a, decide (entry % 2 = 1))]) s' := by
  unfold releaseEntry robustReleaseWord Refused
  cases valid : robustWordAddress space (clear entry) offset with
  | none => exact .inl ⟨nofun, by split <;> rfl⟩
  | some a =>
    obtain ⟨word, sum⟩ := robustWordAddress_some valid
    simp only [Option.some.injEq, forall_eq']
    by_cases tagged : entry % 2 = 1
    · simp only [if_pos tagged, decide_eq_true tagged]
      rcases progress.piRobust space thread word.1 with failed | ⟨prepared, s', done, now⟩
      · exact .inl failed
      · exact .inr ⟨prepared, a, s', rfl, done, now⟩
    have fresh (isPending : pending = true) : a ∉ ws.map fst := by
      intro mem
      obtain ⟨p, listed, rfl⟩ := mem_map.mp mem
      exact new isPending p listed sum
    simp only [if_neg tagged, decide_eq_false tagged]
    rcases progress.attempts space thread word fresh with failed | ⟨usable, s', done, now⟩
    · exact .inl failed
    · exact .inr ⟨usable, a, s', rfl, done, now⟩

section
variable (space : Space) (tid : BitVec 32) (memory : Memory) (head : Nat) (offset : Int) (pending : Nat)

/-- The walk has gone through `n` entries from `entry` to `last`; `ws` are the words handled before them and `ws'`
after them, each with its tag. The links and what is refused are those of the memory as it then was. -/
inductive Walks : List (Nat × Bool) → Nat → Nat → List (Nat × Bool) → Nat → Prop where
  | here {ws : List (Nat × Bool)} {entry : Nat} : Walks ws entry 0 ws entry
  | pending {ws ws' : List (Nat × Bool)} {entry next n last : Nat} : clear entry ≠ head →
      robustReadU64 space (releaseAll tid memory (ws.map Prod.fst)) (clear entry) = some next →
      clear entry = clear pending → Walks ws next n ws' last → Walks ws entry (n + 1) ws' last
  | word {ws ws' : List (Nat × Bool)} {entry next n last a : Nat} : clear entry ≠ head →
      robustReadU64 space (releaseAll tid memory (ws.map Prod.fst)) (clear entry) = some next →
      clear entry ≠ clear pending → ¬ Refused space tid (releaseAll tid memory (ws.map Prod.fst)) entry offset →
      robustWordAddress space (clear entry) offset = some a →
      Walks (ws ++ [(a, decide (entry % 2 = 1))]) next n ws' last → Walks ws entry (n + 1) ws' last

/-- How the loop ends after `n` entries at `last`: it gives up at an entry that cannot be read or has an invalid word. -/
inductive Halts (limit n last : Nat) (s : State) : Bool → Prop where
  | ended : n ≤ limit → clear last = head ∨ n = limit → Halts limit n last s true
  | aborted : n < limit → clear last ≠ head → robustReadU64 space s.memory (clear last) = none ∨
      clear last ≠ clear pending ∧ Refused space tid s.memory last offset → Halts limit n last s false

/-- Which words have been handled in the end. -/
inductive Ends (ws : List (Nat × Bool)) (s : State) : Bool → List (Nat × Bool) → Prop where
  | aborted : Ends ws s false ws
  | bare : clear pending = 0 ∨ Refused space tid s.memory pending offset → Ends ws s true ws
  | pending {a : Nat} : clear pending ≠ 0 → ¬ Refused space tid (releaseAll tid memory (ws.map Prod.fst)) pending offset →
      robustWordAddress space (clear pending) offset = some a → Ends ws s true (ws ++ [(a, decide (pending % 2 = 1))])

end

theorem Walks.apart {head pending : Nat} (walks : Walks space tid memory head offset pending ws entry n ws' last)
    (before : ∀ p ∈ ws, (p.1 : Int) ≠ clear pending + offset) : ∀ p ∈ ws', (p.1 : Int) ≠ clear pending + offset := by
  induction walks with
  | here => exact before
  | pending _ _ _ _ ih => exact ih before
  | word _ _ ne _ valid _ ih =>
    refine ih fun p mem => ?_
    rcases mem_append.mp mem with mem | mem
    · exact before p mem
    rw [mem_singleton.mp mem, (robustWordAddress_some valid).2]
    omega

theorem walk_spec (space : Space) (thread : tid ≠ 0) (head : Nat) (offset : Int) (pending limit : Nat) :
    ∀ entry {s ws}, Progress tid memory ws s → ∃ n ws' last ended out, walk space tid head offset pending limit entry s = (ended, out) ∧
      Walks space tid memory head offset pending ws entry n ws' last ∧ Progress tid memory ws' out ∧
      Halts space tid head offset pending limit n last out ended := by
  induction limit with
  | zero =>
    intro entry s ws progress
    rw [walk, ite_self]
    exact ⟨0, ws, entry, true, s, rfl, .here, progress, .ended (Nat.le_refl 0) (.inr rfl)⟩
  | succ limit ih =>
    intro entry s ws progress
    -- one more entry before a walk that ends within the rest of the limit
    have longer {n last ended out} (ends : Halts space tid head offset pending limit n last out ended) :
        Halts space tid head offset pending (limit + 1) (n + 1) last out ended := by
      cases ends with
      | ended le stop => exact .ended (Nat.succ_le_succ le) (stop.imp_right (congrArg (· + 1)))
      | aborted lt away stops => exact .aborted (Nat.succ_lt_succ lt) away stops
    rw [walk]
    split
    next home =>
      exact ⟨0, ws, entry, true, s, rfl, .here, progress, .ended (Nat.zero_le _) (.inl home)⟩
    rename_i away
    split
    next unreadable =>
      exact ⟨0, ws, entry, false, s, rfl, .here, progress, .aborted (Nat.succ_pos _) away (.inl unreadable)⟩
    rename_i next read
    have link := progress.written ▸ read
    split
    next skip =>
      obtain ⟨n, ws', last, ended, out, ran, walks, after, ends⟩ := ih next progress
      exact ⟨n + 1, ws', last, ended, out, ran, .pending away link skip walks, after, longer ends⟩
    rename_i other
    rcases progress.entry thread space entry offset false nofun with ⟨refused, failed⟩ | ⟨usable, _, _, valid, done, now⟩
    · rw [failed]
      exact ⟨0, ws, entry, false, s, rfl, .here, progress, .aborted (Nat.succ_pos _) away (.inr ⟨other, refused⟩)⟩
    rw [done]
    obtain ⟨n, ws', last, ended, out, ran, walks, after, ends⟩ := ih next now
    exact ⟨n + 1, ws', last, ended, out, ran, .word away link other (progress.written ▸ usable) valid walks, after, longer ends⟩

theorem robust_list_walk (space : Space) (tid : BitVec 32) (memory : Memory) (head : Nat) (thread : tid ≠ 0) :
    match readHead space memory head with
    | none => robustWords space tid head ⟨memory, []⟩ = ⟨memory, []⟩
    | some (first, offset, pending) => ∃ n ws last ended handled,
        Walks space tid memory head offset pending [] first n ws last ∧
        Halts space tid head offset pending robustListLimit n last (robustWords space tid head ⟨memory, []⟩) ended ∧
        Ends space tid memory offset pending ws (robustWords space tid head ⟨memory, []⟩) ended handled ∧
        Progress tid memory handled (robustWords space tid head ⟨memory, []⟩) ∧
        ∀ p ∈ ws, (p.1 : Int) ≠ clear pending + offset := by
  unfold robustWords
  dsimp only
  split
  · rfl
  rename_i first offset pending _
  dsimp only
  have start : Progress tid memory [] ⟨memory, []⟩ := by
    refine ⟨funext fun w => ?_, nofun, nofun, nofun⟩
    rw [releaseAll, if_neg (by rintro ⟨_, wrong⟩; cases wrong)]
  obtain ⟨n, ws, last, ended, _, ran, walks, progress, halts⟩ :=
    walk_spec space thread head offset pending robustListLimit first start
  have apart := walks.apart nofun
  rw [ran]
  cases halts with
  | ended le stop =>
    by_cases none_ : clear pending = 0
    · rw [if_pos (.inr none_)]
      exact ⟨n, ws, last, true, ws, walks, .ended le stop, .bare (.inl none_), progress, apart⟩
    rw [if_neg (not_or.mpr ⟨nofun, none_⟩)]
    rcases progress.entry thread space pending offset true fun _ => apart with ⟨refused, failed⟩ | ⟨usable, _, _, valid, done, now⟩
    · rw [failed]
      exact ⟨n, ws, last, true, ws, walks, .ended le stop, .bare (.inr refused), progress, apart⟩
    · rw [done]
      exact ⟨n, ws, last, true, _, walks, .ended le stop, .pending none_ (progress.written ▸ usable) valid, now, apart⟩
  | aborted lt away stops =>
    rw [if_pos (.inl rfl)]
    exact ⟨n, ws, last, false, ws, walks, .aborted lt away stops, .aborted, progress, apart⟩

def openSpace : Space := ⟨true, 2 ^ 38, fun _ => true, fun _ => true, fun _ => true⟩

/-- A plain mutex at 8192 and a PI mutex at 12288, both of task 7 and with waiters, and no pending entry. -/
def listed : Memory
  | 1024 => 8192
  | 1026 => 16
  | 2048 => 12289
  | 2052 => 0x80000007
  | 3072 => 4096
  | 3076 => 0x80000007
  | _ => 0

theorem robust_list_walk_owned : (robustWords openSpace 7 4096 ⟨listed, []⟩).wakes = [8208] ∧
    (robustWords openSpace 7 4096 ⟨listed, []⟩).memory 3076 = 0xc0000000 ∧
    ∃ n ws last ended handled, Walks openSpace 7 listed 4096 16 0 [] 8192 n ws last ∧
      Halts openSpace 7 4096 16 0 robustListLimit n last (robustWords openSpace 7 4096 ⟨listed, []⟩) ended ∧
      Ends openSpace 7 listed 16 0 ws (robustWords openSpace 7 4096 ⟨listed, []⟩) ended handled ∧
      Progress 7 listed handled (robustWords openSpace 7 4096 ⟨listed, []⟩) ∧
      ∀ p ∈ ws, (p.1 : Int) ≠ clear 0 + 16 := by
  have header : readHead openSpace listed 4096 = some (8192, 16, 0) := by decide +kernel
  have walked := robust_list_walk openSpace 7 listed 4096 (by decide)
  rw [header] at walked
  exact ⟨by decide +kernel, by decide +kernel, walked⟩

end BoarOS.RobustList
