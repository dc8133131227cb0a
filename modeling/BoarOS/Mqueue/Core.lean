import BoarOS.Data.Custody
import BoarOS.Mqueue.Model

namespace BoarOS.Mqueue
open Data Function List Message

/-! # What the queue stores, and who owns each bucket and message

`stored` is the content of the queue in the order of acceptance.
-/

/-- The tree has one bucket for each priority of a stored message. -/
structure Tree (priorities : KeyIndex) (buckets : Nat → List Message) (nextBucket : Nat) (stored : List Message) : Prop where
  unique : priorities.Unique
  owners : ∀ a ∈ priorities.flatten, ∀ b ∈ priorities.flatten, a.owner = b.owner → a = b
  content : ∀ node ∈ priorities.flatten, buckets node.owner = stored.filter (fun m => m.priority == node.key)
  nonempty : ∀ node ∈ priorities.flatten, buckets node.owner ≠ []
  covered : ∀ m ∈ stored, ∃ node ∈ priorities.flatten, node.key = m.priority
  below : ∀ node ∈ priorities.flatten, node.owner < nextBucket

/-- The spare buckets are empty, each has one owner, and a sender's has the priority of its message. -/
structure Spares (requests : Nat → Request) (buckets : Nat → List Message) (nextBucket : Nat) : Prop where
  empty : ∀ t, ∀ node, (requests t).priority = some node → node.owner < nextBucket ∧ buckets node.owner = []
  apart : ∀ t u node other, (requests t).priority = some node → (requests u).priority = some other → node.owner = other.owner → t = u
  keyed : ∀ t, ∀ m node, (requests t).sends = true → (requests t).message = some m →
    (requests t).priority = some node → node.key = m.priority

def Fate.place : Fate → Place Fate
  | .unborn => .unborn
  | .outgoing t => .outgoing t
  | .stored => .stored 0
  | .held t => .held t
  | fate => .gone fate

/-- A receiver has or had the message. -/
def Fate.taken : Fate → Bool
  | .held _ | .delivered | .faulted | .aborted => true
  | _ => false

/-- The queue or a receiver has or had it. -/
def Fate.accepted (fate : Fate) : Bool := fate = .stored || fate.taken

/-- What the log tells of each message is what has become of it. -/
structure Logged (log : List (QueueEvent Message)) (fate : Nat → Fate) : Prop where
  accepted : ∀ n, (fate n).accepted = true ↔ ∃ m, .accepted m ∈ log ∧ m.name = n
  taken : ∀ n, (fate n).taken = true ↔ ∃ m, .taken m ∈ log ∧ m.name = n

section
variable {log : List (QueueEvent Message)} {fate : Nat → Fate} {m : Message} (logged : Logged log fate)
include logged

theorem Logged.quiet (accepted : goal.accepted = (fate n).accepted) (taken : goal.taken = (fate n).taken) :
    Logged log (update fate n goal) := by
  refine ⟨fun k => ?_, fun k => ?_⟩
  · by_cases here : k = n
    · subst here
      rw [update_self, accepted, logged.accepted]
    · rw [update_of_ne here, logged.accepted]
  · by_cases here : k = n
    · subst here
      rw [update_self, taken, logged.taken]
    · rw [update_of_ne here, logged.taken]

theorem Logged.accept (waits : (fate m.name).taken = false) : Logged (.accepted m :: log) (update fate m.name .stored) := by
  refine ⟨fun k => ?_, fun k => ?_⟩
  · by_cases here : k = m.name
    · subst here
      rw [update_self]
      exact iff_of_true rfl ⟨m, mem_cons_self, rfl⟩
    · rw [update_of_ne here, logged.accepted]
      simp only [mem_cons, QueueEvent.accepted.injEq, or_and_right, exists_or, exists_eq_left, Ne.symm here, false_or]
  · have same : (update fate m.name .stored k).taken = (fate k).taken := by
      by_cases here : k = m.name
      · subst here
        rw [update_self, waits]
        rfl
      · rw [update_of_ne here]
    rw [same, logged.taken]
    simp

theorem Logged.take (stays : (fate m.name).accepted = true) : Logged (.taken m :: log) (update fate m.name (.held t)) := by
  refine ⟨fun k => ?_, fun k => ?_⟩
  · have same : (update fate m.name (.held t) k).accepted = (fate k).accepted := by
      by_cases here : k = m.name
      · subst here
        rw [update_self, stays]
        rfl
      · rw [update_of_ne here]
    rw [same, logged.accepted]
    simp
  · by_cases here : k = m.name
    · subst here
      rw [update_self]
      exact iff_of_true rfl ⟨m, mem_cons_self, rfl⟩
    · rw [update_of_ne here, logged.taken]
      simp only [mem_cons, QueueEvent.taken.injEq, or_and_right, exists_or, exists_eq_left, Ne.symm here, false_or]

end

structure Fates (requests : Nat → Request) (fate : Nat → Fate) (nextName : Nat) (stored : List Message) : Prop where
  holds : ∀ t m, (requests t).message = some m → fate m.name = if (requests t).sends then .outgoing t else .held t
  owned : ∀ t n, (fate n).place.owner = some t → ∃ m, (requests t).message = some m ∧ m.name = n
  storedIn : ∀ m ∈ stored, fate m.name = .stored
  storedOf : ∀ n, fate n = .stored → ∃ m ∈ stored, m.name = n
  nodup : (stored.map Message.name).Nodup
  fresh : ∀ n, nextName ≤ n → fate n = .unborn

theorem Fate.place_inj {a b : Fate} (eq : a.place = b.place) : a = b := by
  cases a <;> cases b <;> cases eq <;> rfl

theorem Fate.place_stored {fate : Fate} {q : Nat} (at_ : fate.place = .stored q) : fate = .stored ∧ q = 0 := by
  cases fate <;> cases at_
  exact ⟨rfl, rfl⟩

def Request.party (r : Request) : Party Message := ⟨r.sends, r.message⟩

structure System.Core (s : System) (stored : List Message) : Prop where
  tree : Tree s.priorities s.buckets s.nextBucket stored
  spares : Spares s.requests s.buckets s.nextBucket
  fates : Fates s.requests s.fate s.nextName stored
  count : s.count = stored.length
  bytes : s.bytes = (stored.map Message.size).sum
  history : QueueHistory Message.priority s.log stored
  logged : Logged s.log s.fate

section Tree
variable {priorities : KeyIndex} {bs : Nat → List Message} {nextBucket : Nat} {stored : List Message} {m : Message}
  {p : KeyNode}

theorem Tree.filter_append (node : KeyNode) : (stored ++ [m]).filter (fun x => x.priority == node.key) =
    stored.filter (fun x => x.priority == node.key) ++ if m.priority = node.key then [m] else [] := by
  by_cases eq : m.priority = node.key <;> simp [List.filter_append, eq]

section
variable (tree : Tree priorities bs nextBucket stored)
include tree

theorem Tree.append_found (got : priorities.find m.priority = some p) :
    Tree priorities (update bs p.owner (bs p.owner ++ [m])) nextBucket (stored ++ [m]) := by
  obtain ⟨mem, key⟩ := tree.unique.find_iff.mp got
  refine { tree with content := fun node member => ?_, nonempty := fun node member => ?_, covered := fun x member => ?_ }
  · rw [Tree.filter_append, ← tree.content node member]
    by_cases here : node = p
    · rw [here, update_self, if_pos key.symm]
    rw [update_of_ne fun eq => here (tree.owners node member p mem eq), if_neg, append_nil]
    exact fun eq => here (tree.unique.key_inj member mem (by rw [← eq, key]))
  · by_cases here : node.owner = p.owner
    · rw [here, update_self]
      exact append_ne_nil_of_right_ne_nil _ (cons_ne_nil _ _)
    · rw [update_of_ne here]
      exact tree.nonempty node member
  · rcases mem_append.mp member with old | new
    · exact tree.covered x old
    · rw [mem_singleton.mp new]
      exact ⟨p, mem, key⟩

theorem Tree.append_spare (out : priorities.find m.priority = none) (key : p.key = m.priority) (empty : bs p.owner = [])
    (bound : p.owner < nextBucket) : Tree (priorities.insertNode p) (update bs p.owner (bs p.owner ++ [m])) nextBucket (stored ++ [m]) := by
  have miss := tree.unique.find_none_iff.mp out
  have foreign : ∀ node ∈ priorities.flatten, node.owner ≠ p.owner := by
    intro node member eq
    have full := tree.nonempty node member
    rw [eq] at full
    exact full empty
  obtain ⟨unique, perm⟩ := @KeyIndex.Unique.insertNode priorities p tree.unique fun k member => by
    rw [key]
    exact miss k member
  have member_iff (node : KeyNode) : node ∈ (priorities.insertNode p).flatten ↔ node = p ∨ node ∈ priorities.flatten := by
    rw [perm.mem_iff, mem_cons]
  have none : stored.filter (fun x => x.priority == p.key) = [] := by
    rw [filter_eq_nil_iff]
    intro x mem eq
    obtain ⟨node, member, covers⟩ := tree.covered x mem
    exact miss node member (by rw [covers, beq_iff_eq.mp eq, key])
  refine ⟨unique, ?_, ?_, ?_, ?_, ?_⟩
  · intro a first b snd eq
    rcases (member_iff a).mp first with rfl | old <;> rcases (member_iff b).mp snd with rfl | late
    · rfl
    · exact absurd eq.symm (foreign b late)
    · exact absurd eq (foreign a old)
    · exact tree.owners a old b late eq
  · intro node member
    rw [Tree.filter_append]
    rcases (member_iff node).mp member with rfl | old
    · rw [update_self, empty, none, if_pos key.symm]
    rw [update_of_ne (foreign node old), tree.content node old, if_neg, append_nil]
    exact fun eq => miss node old eq.symm
  · intro node member
    rcases (member_iff node).mp member with rfl | old
    · rw [update_self]
      exact append_ne_nil_of_right_ne_nil _ (cons_ne_nil _ _)
    · rw [update_of_ne (foreign node old)]
      exact tree.nonempty node old
  · intro x member
    rcases mem_append.mp member with old | new
    · obtain ⟨node, mem, covers⟩ := tree.covered x old
      exact ⟨node, (member_iff node).mpr (.inr mem), covers⟩
    · rw [mem_singleton.mp new]
      exact ⟨p, (member_iff p).mpr (.inl rfl), key⟩
  · intro node member
    rcases (member_iff node).mp member with rfl | old
    · exact bound
    · exact tree.below node old

theorem Tree.take (wait : stored ≠ []) :
    ∃ p m more rest, priorities.last = some p ∧ p ∈ priorities.flatten ∧ bs p.owner = m :: more ∧ Takes priority stored m rest ∧
      (more = [] → ∃ others, priorities.removeNode p = some others ∧ Tree others (update bs p.owner more) nextBucket rest) ∧
      (more ≠ [] → Tree priorities (update bs p.owner more) nextBucket rest) := by
  obtain ⟨first, member⟩ := exists_mem_of_ne_nil _ wait
  obtain ⟨node, mem, _⟩ := tree.covered first member
  cases last : priorities.last with
  | none =>
    rw [KeyIndex.last_eq_getLast?, getLast?_eq_none_iff] at last
    rw [last] at mem
    cases mem
  | some p =>
    obtain ⟨atEnd, greatest⟩ := tree.unique.last last
    cases bucket : bs p.owner with
    | nil => exact absurd bucket (tree.nonempty p atEnd)
    | cons m more =>
      have text := tree.content p atEnd
      rw [bucket] at text
      have key : m.priority = p.key := by
        have chosen : m ∈ stored.filter (fun x => x.priority == p.key) := by
          rw [← text]
          exact .head _
        exact beq_iff_eq.mp (mem_filter.mp chosen).2
      have bound : ∀ x ∈ stored, x.priority ≤ m.priority := by
        intro x held
        obtain ⟨node, mem, covers⟩ := tree.covered x held
        rw [← covers, key]
        exact greatest node mem
      rw [← key] at text
      obtain ⟨rest, takes, here, away⟩ := takes_bucket bound text.symm
      have kept : ∀ x ∈ rest, x ∈ stored := fun x left => takes.perm.mem_iff.mpr (.tail _ left)
      have data : ∀ node ∈ priorities.flatten, update bs p.owner more node.owner = rest.filter (fun x => x.priority == node.key) := by
        intro node member
        by_cases eq : node = p
        · rw [eq, update_self, ← key, here]
        have ne : node.key ≠ m.priority := fun equal =>
          eq (tree.unique.key_inj member atEnd (by rw [equal, key]))
        rw [update_of_ne fun equal => eq (tree.owners node member p atEnd equal), away _ ne]
        exact tree.content node member
      have full : ∀ node ∈ priorities.flatten, node ≠ p → update bs p.owner more node.owner ≠ [] := by
        intro node member ne
        rw [update_of_ne fun equal => ne (tree.owners node member p atEnd equal)]
        exact tree.nonempty node member
      refine ⟨p, m, more, rest, rfl, atEnd, bucket, takes, fun drained => ?_, fun left => ?_⟩
      · obtain ⟨others, gone, unique, _, member_iff⟩ := tree.unique.removeNode atEnd
        refine ⟨others, gone, unique, ?_, ?_, ?_, ?_, ?_⟩
        · exact fun a one b two => tree.owners a ((member_iff a).mp one).1 b ((member_iff b).mp two).1
        · exact fun node member => data node ((member_iff node).mp member).1
        · exact fun node member => full node ((member_iff node).mp member).1 ((member_iff node).mp member).2
        · intro x mem
          obtain ⟨node, member, covers⟩ := tree.covered x (kept x mem)
          refine ⟨node, (member_iff node).mpr ⟨member, fun eq => ?_⟩, covers⟩
          have listed : x ∈ rest.filter (fun y => y.priority == m.priority) := mem_filter.mpr ⟨mem, by rw [beq_iff_eq, ← covers, eq, key]⟩
          rw [here, drained] at listed
          cases listed
        · exact fun node member => tree.below node ((member_iff node).mp member).1
      · refine ⟨tree.unique, tree.owners, data, fun node member => ?_, fun x mem => tree.covered x (kept x mem), tree.below⟩
        by_cases eq : node = p
        · rw [eq, update_self]
          exact left
        · exact full node member eq

end
end Tree

section Requests
variable {reqs : Nat → Request} {bs : Nat → List Message} {nextBucket : Nat} {t : Nat} {r : Request}

section
variable (spares : Spares reqs bs nextBucket)
include spares

theorem Spares.update (kept : ∀ node, r.priority = some node → (reqs t).priority = some node)
    (keyed : ∀ m node, r.sends = true → r.message = some m → r.priority = some node → node.key = m.priority) :
    Spares (Function.update reqs t r) bs nextBucket := by
  have pre (u : Nat) (node : KeyNode) (at_ : (Function.update reqs t r u).priority = some node) : (reqs u).priority = some node := by
    by_cases here : u = t
    · subst here
      rw [update_self] at at_
      exact kept node at_
    · rwa [update_of_ne here] at at_
  refine ⟨fun u node at_ => spares.empty u node (pre u node at_), fun a b node ne first snd eq =>
    spares.apart a b node ne (pre a node first) (pre b ne snd) eq, ?_⟩
  rw [Function.forall_update_iff reqs fun _ r => ∀ m node, r.sends = true → r.message = some m →
    r.priority = some node → node.key = m.priority]
  exact ⟨keyed, fun u _ => spares.keyed u⟩

theorem Spares.give (gets : r.priority = some p) (empty : bs p.owner = []) (lo : p.owner < bound) (grows : nextBucket ≤ bound)
    (foreign : ∀ u node, (reqs u).priority = some node → node.owner ≠ p.owner)
    (keyed : ∀ m, r.sends = true → r.message = some m → p.key = m.priority) : Spares (Function.update reqs t r) bs bound := by
  refine ⟨?_, fun a b node ne first snd eq => ?_, ?_⟩
  · rw [Function.forall_update_iff reqs fun _ r => ∀ node, r.priority = some node → node.owner < bound ∧ bs node.owner = []]
    refine ⟨fun node at_ => ?_, fun u _ node at_ => ?_⟩
    · rw [gets] at at_
      cases at_
      exact ⟨lo, empty⟩
    · obtain ⟨less, none⟩ := spares.empty u node at_
      exact ⟨lt_of_lt_of_le less grows, none⟩
  · by_cases one : a = t <;> by_cases two : b = t
    · rw [one, two]
    · subst one
      rw [update_self, gets] at first
      rw [update_of_ne two] at snd
      cases first
      exact absurd eq.symm (foreign b ne snd)
    · subst two
      rw [update_self, gets] at snd
      rw [update_of_ne one] at first
      cases snd
      exact absurd eq (foreign a node first)
    · rw [update_of_ne one] at first
      rw [update_of_ne two] at snd
      exact spares.apart a b node ne first snd eq
  · rw [Function.forall_update_iff reqs fun _ r => ∀ m node, r.sends = true → r.message = some m →
      r.priority = some node → node.key = m.priority]
    refine ⟨fun m node sends msg at_ => ?_, fun u _ => spares.keyed u⟩
    rw [gets] at at_
    cases at_
    exact keyed m sends msg

theorem Spares.setBucket (owner : Nat) (text : List Message) (foreign : ∀ u node, (reqs u).priority = some node → node.owner ≠ owner) :
    Spares reqs (Function.update bs owner text) nextBucket :=
  { spares with
    empty := fun u node at_ => by
      rw [update_of_ne (foreign u node at_)]
      exact spares.empty u node at_ }

end

variable {fate : Nat → Fate} {nextName : Nat} {stored : List Message}

theorem fates_iff : Fates reqs fate nextName stored ↔ Custody name (Request.party ∘ reqs)
    (update (fun _ => []) 0 stored) (Fate.place ∘ fate) nextName := by
  constructor
  · intro fates
    refine ⟨fun t m mine => ?_, fates.owned, fun q m mem => ?_,
      fun q n at_ => ?_, fun q => ?_, fun n high => congrArg Fate.place (fates.fresh n high)⟩
    · rw [comp_apply, fates.holds t m mine, apply_ite Fate.place]
      rfl
    · by_cases here : q = 0
      · subst here
        exact congrArg Fate.place (fates.storedIn m mem)
      · simp [here] at mem
    · obtain ⟨stays, rfl⟩ := Fate.place_stored at_
      exact fates.storedOf n stays
    · by_cases here : q = 0
      · subst here
        exact fates.nodup
      · simp [here]
  · intro inv
    refine ⟨fun t m mine => Fate.place_inj ?_, inv.owned,
      fun m mem => Fate.place_inj (inv.storedIn 0 m (by rwa [update_self])), fun n at_ => ?_, ?_,
      fun n high => Fate.place_inj (inv.fresh n high)⟩
    · rw [apply_ite Fate.place]
      exact inv.holds t m mine
    · simpa using inv.storedOf 0 n (congrArg Fate.place at_)
    · simpa using inv.nodup 0

end Requests
end BoarOS.Mqueue
