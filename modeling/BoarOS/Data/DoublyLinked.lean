import Mathlib.Data.List.Nodup

namespace BoarOS.Data
open List Option

/-! Doubly linked lists with null links.

`Linked` says that a list of nodes is linked forward and backward, entered from `before` and left
to `after`. A node is put in or taken out by changing its own links and one link of each neighbour.
-/

variable {α : Type*}

def Linked (next previous : α → Option α) : Option α → List α → Option α → Prop
  | _, [], _ => True
  | before, node :: rest, after =>
    previous node = before ∧ next node = rest.head?.or after ∧ Linked next previous (some node) rest after

variable {next prev next' previous' : α → Option α} {pre after before' after' : Option α}
  {node : α} {list front back : List α}

theorem linked_append : Linked next prev pre (front ++ back) after ↔ Linked next prev pre front (back.head?.or after) ∧
      Linked next prev (front.getLast?.or pre) back after := by
  induction front generalizing pre with
  | nil => simp [Linked]
  | cons first rest ih =>
    have last : (first :: rest).getLast?.or pre = rest.getLast?.or (some first) := by
      rw [getLast?_cons]
      cases rest.getLast? <;> rfl
    simp only [cons_append, Linked, ih, head?_append, Option.or_assoc, and_assoc, last]

theorem Linked.congr (link : Linked next prev pre list after) (forward : ∀ x ∈ list, next' x = next x)
    (backward : ∀ x ∈ list, previous' x = prev x) : Linked next' previous' pre list after := by
  induction list generalizing pre with
  | nil => trivial
  | cons first rest ih =>
    obtain ⟨back, ahead, tail⟩ := link
    exact ⟨(backward first mem_cons_self).trans back, (forward first mem_cons_self).trans ahead,
      ih tail (fun x mem => forward x (mem_cons_of_mem _ mem)) fun x mem => backward x (mem_cons_of_mem _ mem)⟩

theorem Linked.links (link : Linked next prev none (front ++ node :: back) none) : prev node = front.getLast? ∧ next node = back.head? := by
  obtain ⟨_, behind, ahead, _⟩ := linked_append.mp link
  exact ⟨by rw [behind, or_none], by rw [ahead, or_none]⟩

variable [DecidableEq α]

theorem Linked.setAfter (link : Linked next prev pre list after) (nodup : list.Nodup)
    (forward : ∀ x ∈ list, next' x = if list.getLast? = some x then after' else next x)
    (backward : ∀ x ∈ list, previous' x = prev x) : Linked next' previous' pre list after' := by
  rcases eq_nil_or_concat' list with rfl | ⟨_, last, rfl⟩
  · trivial
  rw [nodup_append] at nodup
  rw [linked_append] at link ⊢
  obtain ⟨prefixLinked, back, _⟩ := link
  refine ⟨prefixLinked.congr (fun x mem => ?_) fun x mem => backward x (mem_append_left _ mem),
    (backward last (by simp)).trans back, ?_, trivial⟩
  · rw [forward x (mem_append_left _ mem), if_neg]
    intro eq
    rw [getLast?_concat] at eq
    cases eq
    exact nodup.2.2 last mem last (mem_singleton_self _) rfl
  · rw [forward last (by simp), if_pos getLast?_concat]
    rfl

theorem Linked.setBefore (link : Linked next prev pre list after) (nodup : list.Nodup) (forward : ∀ x ∈ list, next' x = next x)
    (backward : ∀ x ∈ list, previous' x = if list.head? = some x then before' else prev x) : Linked next' previous' before' list after := by
  cases list with
  | nil => trivial
  | cons first rest =>
    obtain ⟨_, ahead, tail⟩ := link
    refine ⟨(backward first mem_cons_self).trans (if_pos head?_cons), (forward first mem_cons_self).trans ahead,
      tail.congr (fun x mem => forward x (mem_cons_of_mem _ mem)) fun x mem => ?_⟩
    rw [backward x (mem_cons_of_mem _ mem), if_neg]
    rintro eq
    cases eq
    exact (nodup_cons.mp nodup).1 mem

theorem Linked.insert (link : Linked next prev none (front ++ back) none) (nodup : (front ++ back).Nodup)
    (ahead : next' node = back.head?) (behind : previous' node = front.getLast?)
    (forward : ∀ x ∈ front ++ back, next' x = if front.getLast? = some x then some node else next x)
    (backward : ∀ x ∈ front ++ back, previous' x = if back.head? = some x then some node else prev x) :
    Linked next' previous' none (front ++ node :: back) none := by
  obtain ⟨left, right⟩ := linked_append.mp link
  obtain ⟨frontNodup, backNodup, apart⟩ := nodup_append.mp nodup
  refine linked_append.mpr ⟨left.setAfter frontNodup (fun x mem => ?_) fun x mem => ?_, behind.trans or_none.symm, ahead.trans or_none.symm,
    right.setBefore backNodup (fun x mem => ?_) fun x mem => ?_⟩
  · rw [forward x (mem_append_left _ mem)]
    rfl
  · rw [backward x (mem_append_left _ mem), if_neg]
    exact fun eq => apart x mem x (mem_of_head? eq) rfl
  · rw [forward x (mem_append_right _ mem), if_neg]
    exact fun eq => apart x (mem_of_getLast? eq) x mem rfl
  · exact backward x (mem_append_right _ mem)

theorem Linked.erase (link : Linked next prev none (front ++ node :: back) none) (nodup : (front ++ node :: back).Nodup)
    (forward : ∀ x ∈ front ++ back, next' x = if front.getLast? = some x then back.head? else next x)
    (backward : ∀ x ∈ front ++ back, previous' x = if back.head? = some x then front.getLast? else prev x) :
    Linked next' previous' none (front ++ back) none := by
  obtain ⟨left, _, _, right⟩ := linked_append.mp link
  obtain ⟨frontNodup, backNodup, apart⟩ := nodup_append.mp nodup
  refine linked_append.mpr ⟨left.setAfter frontNodup (fun x mem => ?_) fun x mem => ?_,
    right.setBefore (nodup_cons.mp backNodup).2 (fun x mem => ?_) fun x mem => ?_⟩
  · rw [forward x (mem_append_left _ mem), or_none]
  · rw [backward x (mem_append_left _ mem), if_neg]
    exact fun eq => apart x mem x (mem_cons_of_mem _ (mem_of_head? eq)) rfl
  · rw [forward x (mem_append_right _ mem), if_neg]
    exact fun eq => apart x (mem_of_getLast? eq) x (mem_cons_of_mem _ mem) rfl
  · rw [backward x (mem_append_right _ mem), or_none]

end BoarOS.Data
