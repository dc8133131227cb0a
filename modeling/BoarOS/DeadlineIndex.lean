import BoarOS.Data.KeyIndex

namespace BoarOS.DeadlineIndex
open Data List

/-! # Deadline indexes (`kernel/sched/wait.c`, `kernel/sched/posix_timer.c`, `fs/event_fd.c`)

Sleeping tasks, wall timers and timer descriptors are in trees ordered by the unsigned deadline. A loop takes out the
first entry while it is due by a signed difference. -/

/-- `(int64_t)(now - deadline)`. -/
def difference (now deadline : Nat) : Int :=
  let ticks : Nat := (now + 2 ^ 64 - deadline) % 2 ^ 64
  if ticks < 2 ^ 63 then ticks else ticks - 2 ^ 64

/-- An order of entries that follows their deadlines. A gated index is passed over while its summary is zero; the other
kind takes no entry with deadline zero. -/
structure Order (α : Type) where
  key : α → Nat
  gated : Bool
  before : α → α → Bool
  trans : ∀ a b c, before a b → before b c → before a c
  asymm : ∀ a b, before a b → before b a = false
  total : ∀ a b, a ≠ b → before a b ∨ before b a
  ascends : ∀ a b, before a b → key a ≤ key b

theorem before_total (a b : KeyNode) (ne : a ≠ b) : KeyIndex.before a b ∨ KeyIndex.before b a := by
  grind [KeyIndex.before, KeyNode]

theorem key_le (a b : KeyNode) (less : KeyIndex.before a b) : a.key ≤ b.key := by grind [KeyIndex.before]

/-- Wall timers and timer descriptors. -/
def timers : Order KeyNode where
  key := KeyNode.key
  gated := true
  before := KeyIndex.before
  trans := KeyIndex.before_trans
  asymm := KeyIndex.before_asymm
  total := before_total
  ascends := key_le

variable {α : Type}

def first : AvlTree α Unit → Option α
  | .nil => none
  | .node left entry _ _ _ => (first left).or (some entry)

theorem first_eq (tree : AvlTree α Unit) : first tree = tree.flatten.head? := by
  induction tree with
  | nil => rfl
  | node left entry _ _ _ ih _ => rw [first, ih, AvlTree.flatten, head?_append]; rfl

theorem first_greatest {tree : AvlTree α Unit} {f : α → Int} (ordered : tree.flatten.Pairwise fun a b => f b ≤ f a)
    (got : first tree = some entry) : entry ∈ tree.flatten ∧ ∀ e ∈ tree.flatten, f e ≤ f entry := by
  rw [first_eq] at got
  obtain ⟨tail, eq⟩ := head?_eq_some_iff.mp got
  rw [eq] at ordered ⊢
  exact ⟨mem_cons_self, forall_mem_cons.mpr ⟨le_rfl, fun _ => rel_of_pairwise_cons ordered⟩⟩

def Order.insert (o : Order α) (tree : AvlTree α Unit) (entry : α) : AvlTree α Unit := tree.insert (fun _ => ()) o.before entry

structure Armed (o : Order α) (tree : AvlTree α Unit) : Prop where
  wellFormed : tree.WellFormed fun _ => ()
  sorted : tree.flatten.Pairwise fun a b => o.before a b

theorem Armed.insert {o : Order α} {tree : AvlTree α Unit} (armed : Armed o tree) (new : entry ∉ tree.flatten) : Armed o (o.insert tree entry) := by
  refine ⟨(AvlTree.insert_rebuilt o.before _ armed.wellFormed).wellFormed, AvlTree.insert_ordered o.trans armed.sorted ?_⟩
  exact fun a mem => o.total _ _ fun eq => new (eq ▸ mem)

variable [DecidableEq α]

namespace Order
variable (o : Order α)

def remove (tree : AvlTree α Unit) (entry : α) : Option (AvlTree α Unit) :=
  tree.remove (fun _ => ()) o.before (· == entry) entry

/-- The summary of the next event; zero is none. -/
def published (tree : AvlTree α Unit) : Nat := ((first tree).map o.key).getD 0

inductive Reachable : AvlTree α Unit → Prop where
  | empty : Reachable .nil
  | insert : Reachable tree → entry ∉ tree.flatten → o.key entry < 2 ^ 64 → (o.gated = false → o.key entry ≠ 0) →
      Reachable (o.insert tree entry)
  | remove : Reachable tree → entry ∈ tree.flatten → o.remove tree entry = some rest → Reachable rest

end Order

variable {o : Order α} {tree : AvlTree α Unit}

theorem Armed.remove (armed : Armed o tree) (mem : entry ∈ tree.flatten) :
    ∃ rest, o.remove tree entry = some rest ∧ Armed o rest ∧ tree.flatten.Perm (entry :: rest.flatten) := by
  obtain ⟨rest, ran, gone⟩ := AvlTree.remove_spec o.asymm (fun _ _ => beq_iff_eq) armed.sorted mem armed.wellFormed
  exact ⟨rest, ran, ⟨gone.wellFormed, armed.sorted.sublist gone.sublist⟩, gone.perm⟩

theorem Order.Reachable.armed (run : o.Reachable tree) : Armed o tree := by
  induction run with
  | empty => exact ⟨trivial, .nil⟩
  | insert _ new _ _ ih => exact ih.insert new
  | remove _ mem ran ih =>
    obtain ⟨_, same, armed, _⟩ := ih.remove mem
    cases ran.symm.trans same
    exact armed

theorem Order.Reachable.small (run : o.Reachable tree) : ∀ e ∈ tree.flatten, o.key e < 2 ^ 64 := by
  induction run with
  | empty => simp [AvlTree.flatten]
  | @insert tree entry _ _ fits _ ih =>
    intro e mem
    rcases mem_cons.mp ((AvlTree.insert_perm o.before entry tree).mem_iff.mp mem) with rfl | old
    · exact fits
    · exact ih e old
  | remove reach mem ran ih =>
    obtain ⟨_, same, _, perm⟩ := reach.armed.remove mem
    cases ran.symm.trans same
    exact fun e old => ih e (perm.mem_iff.mpr (mem_cons_of_mem _ old))

/-- A wrap of the counter lies between the counter and the deadline. -/
abbrev Wrapped (now deadline : Nat) : Prop := deadline + 2 ^ 63 ≤ now ∨ now + 2 ^ 63 < deadline

section
variable {now early late : Nat} (small : now < 2 ^ 64) (le : early ≤ late) (fits : late < 2 ^ 64)
include small le fits

theorem difference_antitone (same : Wrapped now early ↔ Wrapped now late) : difference now late ≤ difference now early := by
  dsimp only [difference]
  split <;> split <;> omega

end

/-- Exactly what is due has fired, in the signed order, and the summary is what that order puts first. -/
structure Exact (o : Order α) (now : Nat) (tree : AvlTree α Unit) (fired : List α) : Prop where
  due : ∀ e, e ∈ fired ↔ e ∈ tree.flatten ∧ 0 ≤ difference now (o.key e)
  ordered : fired.Pairwise fun a b => difference now (o.key b) ≤ difference now (o.key a)
  next : tree.flatten = [] ∧ o.published tree = 0 ∨ ∃ e ∈ tree.flatten, o.published tree = o.key e ∧
    ∀ other ∈ tree.flatten, difference now (o.key other) ≤ difference now (o.key e)

/-- No wrap separates two of the deadlines, and none that is due reads as no deadline. -/
structure Unseparated (o : Order α) (now : Nat) (tree : AvlTree α Unit) : Prop where
  side : (∀ e ∈ tree.flatten, Wrapped now (o.key e)) ∨ ∀ e ∈ tree.flatten, ¬ Wrapped now (o.key e)
  zero : o.gated = true → ∀ e ∈ tree.flatten, o.key e = 0 → difference now 0 < 0

section
variable {now : Nat} {fired : List α} (run : o.Reachable tree)
include run

theorem Unseparated.ordered (small : now < 2 ^ 64) (plain : Unseparated o now tree) :
    tree.flatten.Pairwise fun a b => difference now (o.key b) ≤ difference now (o.key a) := by
  refine run.armed.sorted.imp_of_mem fun {a b} memA memB less => ?_
  refine difference_antitone small (o.ascends a b less) (run.small b memB) ?_
  rcases plain.side with all | none_
  · exact iff_of_true (all a memA) (all b memB)
  · exact iff_of_false (none_ a memA) (none_ b memB)

theorem Unseparated.next (small : now < 2 ^ 64) (plain : Unseparated o now tree) :
    tree.flatten = [] ∧ o.published tree = 0 ∨ ∃ e ∈ tree.flatten, o.published tree = o.key e ∧
      ∀ other ∈ tree.flatten, difference now (o.key other) ≤ difference now (o.key e) := by
  unfold Order.published
  cases got : first tree with
  | none => exact .inl ⟨head?_eq_none_iff.mp (first_eq tree ▸ got), rfl⟩
  | some head =>
    obtain ⟨mem, most⟩ := first_greatest (plain.ordered run small) got
    exact .inr ⟨head, mem, rfl, most⟩

/-- A closed gate hides nothing that is due. -/
theorem Unseparated.closed (small : now < 2 ^ 64) (plain : Unseparated o now tree) (gated : o.gated = true)
    (shut : o.published tree = 0 ∨ difference now (o.published tree) < 0) : Exact o now tree [] := by
  have next := plain.next run small
  refine ⟨fun e => ⟨nofun, ?_⟩, .nil, next⟩
  rintro ⟨mem, late⟩
  rcases next with ⟨empty, _⟩ | ⟨first, here, key, most⟩
  · rw [empty] at mem
    cases mem
  have le := most e mem
  have undue : difference now (o.key first) < 0 := by
    rcases shut with zero | undue
    · rw [← key, zero]
      exact plain.zero gated first here (key.symm.trans zero)
    · exact key ▸ undue
  omega

theorem Unseparated.fires {left : AvlTree α Unit} (small : now < 2 ^ 64) (plain : Unseparated o now tree)
    (split : tree.flatten = fired ++ left.flatten) (due : ∀ e ∈ fired, 0 ≤ difference now (o.key e))
    (undue : ∀ e, first left = some e → difference now (o.key e) < 0) : Exact o now tree fired := by
  have parts := plain.ordered run small
  rw [split, pairwise_append] at parts
  refine ⟨fun e => ⟨fun mem => ⟨split ▸ mem_append_left _ mem, due e mem⟩, ?_⟩, parts.1, plain.next run small⟩
  rw [split, mem_append]
  rintro ⟨mem | mem, past⟩
  · exact mem
  cases got : first left with
  | none =>
    rw [first_eq, head?_eq_none_iff] at got
    rw [got] at mem
    cases mem
  | some head =>
    have most := (first_greatest parts.2.1 got).2 e mem
    have late := undue head got
    omega

end

end BoarOS.DeadlineIndex
