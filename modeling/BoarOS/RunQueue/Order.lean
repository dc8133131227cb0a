import BoarOS.Data.DoublyLinked
import BoarOS.RunQueue.Model

namespace BoarOS.RunQueue
open List Scheduler
open Function (update update_of_ne update_self update_idem update_eq_self)
open Data

/-! One run queue is the sequence of its buckets, from the highest priority down. -/

def descending (buckets : Nat → List Nat) (low : Nat) : Nat → List Nat
  | 0 => []
  | count + 1 => buckets (low + count) ++ descending buckets low count

def flatten (buckets : Nat → List Nat) : List Nat := descending buckets 0 100

variable {bs : Nat → List Nat} {low count more p t : Nat} {bucket : List Nat}

theorem descending_split : descending bs low (count + more) = descending bs (low + count) more ++ descending bs low count := by
  induction more with
  | zero => rfl
  | succ more ih => rw [Nat.add_succ, descending, descending, ih, Nat.add_assoc, append_assoc]

theorem mem_descending : t ∈ descending bs low count ↔ ∃ p, low ≤ p ∧ p < low + count ∧ t ∈ bs p := by
  induction count with
  | zero => simp [descending]; omega
  | succ count ih =>
    rw [descending, mem_append, ih]
    constructor
    · rintro (here | ⟨p, lo, upper, mem⟩)
      · exact ⟨low + count, by omega, by omega, here⟩
      · exact ⟨p, lo, by omega, mem⟩
    rintro ⟨p, lo, _, mem⟩
    rcases Nat.lt_or_ge p (low + count) with less | _
    · exact .inr ⟨p, lo, less, mem⟩
    rw [show p = low + count by omega] at mem
    exact .inl mem

theorem descending_update (out : p < low ∨ low + count ≤ p) : descending (update bs p bucket) low count = descending bs low count := by
  induction count with
  | zero => rfl
  | succ count ih =>
    rw [descending, descending, ih (by omega), update_of_ne (by omega)]

theorem flatten_split (bs : Nat → List Nat) (lt : p ≤ 99) : flatten bs = descending bs (p + 1) (99 - p) ++ (bs p ++ descending bs 0 p) := by
  rw [flatten, show 100 = p + 1 + (99 - p) by omega, descending_split, Nat.zero_add, descending, Nat.zero_add]

theorem flatten_update (lt : p ≤ 99) : flatten (update bs p bucket) = descending bs (p + 1) (99 - p) ++ (bucket ++ descending bs 0 p) := by
  rw [flatten_split _ lt, descending_update (by omega), descending_update (by omega), update_self]

theorem findSome_tails {tails : Nat → Option Nat} (last : ∀ p, tails p = (bs p).getLast?) :
    (List.range' low count).findSome? tails = (descending bs low count).getLast? := by
  induction count generalizing low with
  | zero => rfl
  | succ count ih =>
    rw [List.range'_succ, findSome?_cons, Nat.add_comm count 1, descending_split, ih, last]
    have single : descending bs low 1 = bs low := by simp [descending]
    rw [single, getLast?_append]
    cases (bs low).getLast? <;> rfl

structure Represents (queue : Runqueue) (nodes : Nat → Node) (buckets : Nat → List Nat) : Prop where
  heads : ∀ p, queue.heads p = (buckets p).head?
  tails : ∀ p, queue.tails p = (buckets p).getLast?
  first : queue.first = (flatten buckets).head?
  last : queue.last = (flatten buckets).getLast?
  linked : Linked (fun x => (nodes x).next) (fun x => (nodes x).previous) none (flatten buckets) none
  nodup : (flatten buckets).Nodup
  members : ∀ p t, t ∈ buckets p → p ≤ 99 ∧ (nodes t).priority = p ∧ (nodes t).owner = t ∧ (nodes t).queued = true

variable {q s' : Runqueue} {nodes nodes' : Nat → Node} {node prev next v : Option Nat} {x : Nat}
  {head : Bool}

@[simp] theorem setNext_next : (setNext nodes node v x).next = if node = some x then v else (nodes x).next := by
  cases node with
  | none => simp [setNext]
  | some y =>
    rcases eq_or_ne x y with rfl | other
    · simp [setNext]
    · simp [setNext, other, other.symm]

@[simp] theorem setNext_previous : (setNext nodes node v x).previous = (nodes x).previous := by
  cases node with
  | none => rfl
  | some y => rcases eq_or_ne x y with rfl | ne <;> simp [setNext, *]

@[simp] theorem setPrevious_previous : (setPrevious nodes node v x).previous = if node = some x then v else (nodes x).previous := by
  cases node with
  | none => simp [setPrevious]
  | some y =>
    rcases eq_or_ne x y with rfl | other
    · simp [setPrevious]
    · simp [setPrevious, other, other.symm]

@[simp] theorem setPrevious_next : (setPrevious nodes node v x).next = (nodes x).next := by
  cases node with
  | none => rfl
  | some y => rcases eq_or_ne x y with rfl | ne <;> simp [setPrevious, *]

/-- What identifies a node apart from its links. -/
def Node.label (node : Node) : Nat × Nat × Bool := (node.owner, node.priority, node.queued)

@[simp] theorem setNext_label : (setNext nodes node v x).label = (nodes x).label := by
  cases node with
  | none => rfl
  | some y => rcases eq_or_ne x y with rfl | ne <;> simp [setNext, Node.label, *]

@[simp] theorem setPrevious_label : (setPrevious nodes node v x).label = (nodes x).label := by
  cases node with
  | none => rfl
  | some y => rcases eq_or_ne x y with rfl | ne <;> simp [setPrevious, Node.label, *]

theorem setNext_of_ne (ne : node ≠ some x) : setNext nodes node v x = nodes x := by
  cases node with
  | none => rfl
  | some y => simp [setNext, update_of_ne fun eq => ne (congrArg some eq.symm)]

theorem setPrevious_of_ne (ne : node ≠ some x) : setPrevious nodes node v x = nodes x := by
  cases node with
  | none => rfl
  | some y => simp [setPrevious, update_of_ne fun eq => ne (congrArg some eq.symm)]

theorem unlink_of_ne (ne : x ≠ t) : Runqueue.unlink nodes t x =
    setPrevious (setNext nodes (nodes t).previous (nodes t).next) (nodes t).next (nodes t).previous x :=
  update_of_ne ne _ _

theorem unlink_label (ne : x ≠ t) : (Runqueue.unlink nodes t x).label = (nodes x).label := by
  rw [unlink_of_ne ne]
  simp

namespace Represents
section
variable (rep : Represents q nodes bs)
include rep

theorem mem_flatten : t ∈ flatten bs ↔ t ∈ bs (nodes t).priority := by
  rw [flatten, mem_descending]
  constructor
  · rintro ⟨p, _, _, mem⟩
    rw [(rep.members p t mem).2.1]
    exact mem
  intro mem
  have lt := (rep.members _ t mem).1
  exact ⟨_, Nat.zero_le _, by omega, mem⟩

theorem priority_of_mem (mem : t ∈ descending bs low count) : low ≤ (nodes t).priority ∧ (nodes t).priority < low + count := by
  obtain ⟨p, lo, upper, here⟩ := mem_descending.mp mem
  rw [(rep.members p t here).2.1]
  exact ⟨lo, upper⟩

theorem congr (eq : ∀ x ∈ flatten bs, nodes' x = nodes x) : Represents q nodes' bs where
  heads := rep.heads
  tails := rep.tails
  first := rep.first
  last := rep.last
  linked := rep.linked.congr (fun x inside => by rw [eq x inside]) fun x inside => by rw [eq x inside]
  nodup := rep.nodup
  members p t inside := by
    have lt := (rep.members p t inside).1
    rw [eq t (mem_descending.mpr ⟨p, Nat.zero_le _, by omega, inside⟩)]
    exact rep.members p t inside

end

theorem place_spec (rep : Represents q nodes bs) (lt : p ≤ 99) (t : Nat) (head : Bool) :
    ∃ front back, q.place nodes p head = some (front.getLast?, back.head?) ∧ flatten bs = front ++ back ∧
      flatten (insertBucket bs t p head) = front ++ t :: back := by
  have whole := flatten_split bs lt
  have link := rep.linked
  rw [whole] at link
  unfold insertBucket
  rw [flatten_update lt]
  unfold Runqueue.place
  cases got : q.heads p with
  | some first =>
    have start := rep.heads p
    rw [got] at start
    obtain ⟨_, shape⟩ := head?_eq_some_iff.mp start.symm
    cases head with
    | true =>
      refine ⟨_, _, ?_, whole, by simp⟩
      rw [shape] at link ⊢
      simp [link.links.1]
    | false =>
      obtain ⟨init, last, ends⟩ := eq_nil_or_concat' (bs p) |>.resolve_left (by simp [shape])
      refine ⟨descending bs (p + 1) (99 - p) ++ bs p, descending bs 0 p, ?_, ?_, by simp⟩
      · rw [ends] at link ⊢
        rw [append_assoc, ← append_assoc] at link
        have links := link.links
        simp [rep.tails p, ends, links.2]
      · rw [whole, append_assoc]
  | none =>
    have start := rep.heads p
    rw [got] at start
    have empty : bs p = [] := head?_eq_none_iff.mp start.symm
    rw [empty] at link whole
    refine ⟨_, _, ?_, whole, by cases head <;> simp [empty]⟩
    dsimp only
    split
    next above =>
      have nothing : descending bs 0 p = [] := by
        rcases eq_nil_or_concat' (descending bs 0 p) with none | ⟨init, last, ends⟩
        · exact none
        have end_ : q.last = some last := by
          rw [rep.last, whole, ends]
          simp
        have mem : last ∈ descending bs 0 p := by simp [ends]
        have lo := (rep.priority_of_mem mem).2
        simp only [end_, Option.all_some, decide_eq_true_eq] at above
        omega
      rw [rep.last, whole, nothing]
      simp
    · rw [findSome_tails rep.tails]
      cases last : (descending bs (p + 1) (99 - p)).getLast? with
      | none =>
        have nothing : descending bs (p + 1) (99 - p) = [] := getLast?_eq_none_iff.mp last
        rw [rep.first, whole, nothing]
        simp
      | some tail =>
        obtain ⟨_, shape⟩ := getLast?_eq_some_iff.mp last
        rw [shape, append_assoc] at link
        simp [link.links.2]

theorem insertBucket_head (p' : Nat) : (insertBucket bs t p head p').head? =
    if p' = p ∧ (bs p = [] ∨ head = true) then some t else (bs p').head? := by
  rcases eq_or_ne p' p with rfl | ne
  · cases head <;> cases shape : bs p' <;> simp [insertBucket, shape]
  · simp [insertBucket, ne]

theorem insertBucket_last (p' : Nat) : (insertBucket bs t p head p').getLast? =
    if p' = p ∧ (bs p = [] ∨ head = false) then some t else (bs p').getLast? := by
  rcases eq_or_ne p' p with rfl | ne
  · cases head with
    | true =>
      rcases eq_nil_or_concat' (bs p') with none | ⟨_, _, shape⟩
      · simp [insertBucket, none]
      · simp [insertBucket, shape, getLast?_cons]
    | false => simp [insertBucket]
  · simp [insertBucket, ne]

theorem mem_insertBucket (p' : Nat) : x ∈ insertBucket bs t p head p' ↔ x ∈ bs p' ∨ x = t ∧ p' = p := by
  rcases eq_or_ne p' p with rfl | ne
  · cases head <;> simp [insertBucket, or_comm]
  · simp [insertBucket, ne]

/-- What an operation on one list leaves of the nodes: only the nodes of the list change, and only their links. -/
structure Frame (list : List Nat) (t : Nat) (nodes nodes' : Nat → Node) : Prop where
  outside : ∀ x, x ∉ list → x ≠ t → nodes' x = nodes x
  labels : ∀ x, x ≠ t → (nodes' x).label = (nodes x).label

theorem enqueue_spec (rep : Represents q nodes bs) (unqueued : (nodes t).queued = false) (lt : p ≤ 99) (head : Bool) :
    ∃ s' nodes', q.enqueue nodes t t p head = some (s', nodes') ∧ Represents s' nodes' (insertBucket bs t p head) ∧ s'.boosted = q.boosted ∧
      Frame (flatten bs) t nodes nodes' ∧ (nodes' t).label = (t, p, true) := by
  obtain ⟨front, back, pos, whole, grown⟩ := rep.place_spec lt t head
  have new : t ∉ flatten bs := fun mem => by
    rw [(rep.members _ t (rep.mem_flatten.mp mem)).2.2.2] at unqueued
    cases unqueued
  have nodup := rep.nodup
  have link := rep.linked
  have notFront : front.getLast? ≠ some t := fun eq => new (by
    rw [whole]; exact mem_append_left _ (mem_of_getLast? eq))
  have notBack : back.head? ≠ some t := fun eq => new (by
    rw [whole]; exact mem_append_right _ (mem_of_head? eq))
  unfold Runqueue.enqueue
  rw [if_neg (by simp [unqueued, lt]), pos, Option.map_some]
  refine ⟨_, _, rfl, ?_, rfl, ?_, ?_⟩
  · refine ⟨fun p' => ?_, fun p' => ?_, ?_, ?_, ?_, ?_, fun p' x mem => ?_⟩
    · rw [insertBucket_head, rep.heads]
      simp only [head?_eq_none_iff]
      split
      next free =>
        rcases eq_or_ne p' p with rfl | other
        · simp [free]
        · simp [other, rep.heads]
      next kept =>
        rw [rep.heads, if_neg fun both => kept both.2]
    · rw [insertBucket_last, rep.tails]
      simp only [getLast?_eq_none_iff]
      split
      next free =>
        rcases eq_or_ne p' p with rfl | other
        · simp [free]
        · simp [other, rep.tails]
      next kept =>
        rw [rep.tails, if_neg fun both => kept both.2]
    · rw [grown, rep.first, whole]
      cases front <;> simp
    · rw [grown, rep.last, whole]
      rcases eq_nil_or_concat' back with rfl | ⟨_, _, rfl⟩
      · simp
      · simp [getLast?_cons]
    · rw [grown]
      rw [whole] at link nodup
      refine link.insert nodup ?_ ?_ (fun x mem => ?_) fun x mem => ?_
      · simp [notFront]
      · simp [notBack]
      · have other : x ≠ t := fun eq => new (by rwa [whole, ← eq])
        simp [other]
      · have other : x ≠ t := fun eq => new (by rwa [whole, ← eq])
        simp [other]
    · rw [grown]
      rw [whole] at new nodup
      exact nodup_middle.mpr (nodup_cons.mpr ⟨new, nodup⟩)
    · have label : (setPrevious (setNext (update nodes t ⟨back.head?, front.getLast?, t, p, true⟩)
          front.getLast? (some t)) back.head? (some t) x).label =
          (update nodes t ⟨back.head?, front.getLast?, t, p, true⟩ x).label := by simp
      simp only [Node.label, Prod.mk.injEq] at label
      rw [label.1, label.2.1, label.2.2]
      rcases (mem_insertBucket p').mp mem with old | ⟨rfl, rfl⟩
      · have other : x ≠ t := fun eq => by
          have queued := (rep.members p' x old).2.2.2
          rw [eq, unqueued] at queued
          cases queued
        rw [update_of_ne other]
        exact rep.members p' x old
      · simp [lt]
  · refine ⟨fun x out other => ?_, fun x other => by simp [other]⟩
    rw [whole] at out
    rw [setPrevious_of_ne, setNext_of_ne, update_of_ne other]
    · exact fun eq => out (mem_append_left _ (mem_of_getLast? eq))
    · exact fun eq => out (mem_append_right _ (mem_of_head? eq))
  · rw [setPrevious_label, setNext_label, update_self]
    rfl

section
variable (rep : Represents q nodes bs)
include rep

theorem next_here (shape : bs p = pre ++ t :: behind) :
    ((behind ++ descending bs 0 p).head?.filter fun x => (nodes x).priority = p) = behind.head? := by
  cases behind with
  | cons first rest =>
    have here := (rep.members p first (by simp [shape])).2.1
    simp [here]
  | nil =>
    cases low : descending bs 0 p with
    | nil => rfl
    | cons first rest =>
      have lo := (rep.priority_of_mem (t := first) (by rw [low]; exact (.head _))).2
      have ne : (nodes first).priority ≠ p := by omega
      simp [ne]

theorem previous_here (shape : bs p = pre ++ t :: behind) :
    ((descending bs (p + 1) (99 - p) ++ pre).getLast?.filter fun x => (nodes x).priority = p) = pre.getLast? := by
  rcases eq_nil_or_concat' pre with rfl | ⟨_, last, rfl⟩
  · rw [append_nil]
    cases high : (descending bs (p + 1) (99 - p)).getLast? with
    | none => rfl
    | some last =>
      have above := (rep.priority_of_mem (mem_of_getLast? high)).1
      have ne : (nodes last).priority ≠ p := by omega
      simp [ne]
  · have here := (rep.members p last (by simp [shape])).2.1
    simp [here]

theorem dequeue_spec (mem : t ∈ bs p) : ∃ s' nodes', q.dequeue nodes t = some (s', nodes') ∧
      Represents s' nodes' (eraseBucket bs t p) ∧ s'.boosted = q.boosted ∧
      Frame (flatten bs) t nodes nodes' ∧ (nodes' t).queued = false := by
  obtain ⟨lt, prio, _, queued⟩ := rep.members p t mem
  obtain ⟨pre, behind, shape⟩ := append_of_mem mem
  have nodup := rep.nodup
  have link := rep.linked
  have split := flatten_split bs lt
  have whole : flatten bs = (descending bs (p + 1) (99 - p) ++ pre) ++ t :: (behind ++ descending bs 0 p) := by
    rw [split, shape]
    simp
  rw [whole] at nodup link
  obtain ⟨prev, next⟩ := link.links
  have apart := nodup_middle.mp nodup
  have unique : t ∉ pre ∧ t ∉ behind := by
    have absent := (nodup_cons.mp apart).1
    simp only [mem_append, not_or] at absent
    exact ⟨absent.1.2, absent.2.1⟩
  have erased : (bs p).erase t = pre ++ behind := by
    rw [shape, erase_append_right _ unique.1, erase_cons_head]
  have shrunk : flatten (eraseBucket bs t p) = (descending bs (p + 1) (99 - p) ++ pre) ++ (behind ++ descending bs 0 p) := by
    rw [eraseBucket, flatten_update lt, erased]
    simp
  have ms : ∀ p' x, x ∈ eraseBucket bs t p p' → x ∈ bs p' ∧ x ≠ t := by
    intro p' x within
    rcases eq_or_ne p' p with rfl | other
    · rw [eraseBucket, update_self, erased] at within
      rw [shape]
      refine ⟨by simp only [mem_append] at within ⊢; tauto, ?_⟩
      rintro rfl
      rcases mem_append.mp within with earlier | later
      · exact unique.1 earlier
      · exact unique.2 later
    rw [eraseBucket, update_of_ne other] at within
    refine ⟨within, ?_⟩
    rintro rfl
    exact other ((rep.members p' x within).2.1.symm.trans prio)
  unfold Runqueue.dequeue
  rw [if_neg (by simp [queued])]
  refine ⟨_, _, rfl, ?_, rfl, ?_, ?_⟩
  · rw [prev, next, prio]
    refine ⟨fun p' => ?_, fun p' => ?_, ?_, ?_, ?_, ?_, fun p' x within => ?_⟩
    · dsimp only
      rw [eraseBucket]
      rcases eq_or_ne p' p with rfl | other
      · rw [rep.heads, rep.next_here shape, shape]
        cases pre with
        | nil => simp
        | cons first rest =>
          have ne : first ≠ t := fun eq => unique.1 (by rw [eq]; exact (.head _))
          simp [ne, rep.heads, shape]
      rw [update_of_ne other]
      split
      · rw [update_of_ne other, rep.heads]
      · exact rep.heads p'
    · dsimp only
      rw [eraseBucket]
      rcases eq_or_ne p' p with rfl | other
      · rw [erased, rep.tails, rep.previous_here shape, shape]
        rcases eq_nil_or_concat' behind with rfl | ⟨init, last, rfl⟩
        · simp
        have ne : last ≠ t := fun eq => unique.2 (by simp [eq])
        simp [ne, rep.tails, shape, getLast?_cons]
      rw [update_of_ne other]
      split
      · rw [update_of_ne other, rep.tails]
      · exact rep.tails p'
    · rw [shrunk, rep.first, whole]
      cases (descending bs (p + 1) (99 - p) ++ pre) <;> simp
    · rw [shrunk, rep.last, whole]
      rcases eq_nil_or_concat' (behind ++ descending bs 0 p) with none | ⟨_, _, ends⟩
      · simp [none]
      rw [ends]
      simp [getLast?_cons]
    · rw [shrunk]
      refine link.erase nodup (fun x within => ?_) fun x within => ?_
      · have other : x ≠ t := fun eq => (nodup_cons.mp apart).1 (by rwa [← eq])
        rw [unlink_of_ne other, prev, next]
        simp
      have other : x ≠ t := fun eq => (nodup_cons.mp apart).1 (by rwa [← eq])
      rw [unlink_of_ne other, prev, next]
      simp
    · rw [shrunk]
      exact (nodup_cons.mp apart).2
    · obtain ⟨old, other⟩ := ms p' x within
      have eq : (Runqueue.unlink nodes t x).label = (nodes x).label := unlink_label other
      simp only [Node.label, Prod.mk.injEq] at eq
      rw [eq.1, eq.2.1, eq.2.2]
      exact rep.members p' x old
  · refine ⟨fun x out other => ?_, fun x other => unlink_label other⟩
    rw [whole] at out
    rw [unlink_of_ne other, prev, next, setPrevious_of_ne, setNext_of_ne]
    · exact fun eq => out (mem_append_left _ (mem_of_getLast? eq))
    · exact fun eq => out (mem_append_right _ (.tail _ (mem_of_head? eq)))
  · simp [Runqueue.unlink]

end
end Represents
end BoarOS.RunQueue
