import Mathlib.Data.List.Nodup
import Mathlib.Data.List.Perm.Basic

/-!
# Tables of chains

A hash table as an array of chains. `slot` says which chain an element belongs
to, `key` what it is looked up by. The flattened table is the semantic model:
every operation is described by what it does there, and `Placed` is all that
lookups need besides.
-/

namespace BoarOS.ChainTable
open List ChainTable

variable {α : Type}

def onFirst (test : α → Bool) (edit : α → Option α) : List α → List α
  | [] => []
  | a :: rest => if test a then (edit a).toList ++ rest else a :: onFirst test edit rest

def find (table : List (List α)) (place : Nat) (test : α → Bool) : Option α :=
  ((table[place]?).getD []).find? test

def insert (table : List (List α)) (place : Nat) (a : α) : List (List α) :=
  table.modify place fun chain => a :: chain

def rehash (table : List (List α)) (slot : α → Nat) (capacity : Nat) : List (List α) :=
  table.foldl (fun grown chain => chain.foldl (fun grown a => insert grown (slot a) a) grown) (List.replicate capacity [])

def Placed (slot : α → Nat) (table : List (List α)) : Prop :=
  ∀ place chain, table[place]? = some chain → ∀ a ∈ chain, slot a = place

variable {t : List (List α)} {slot : α → Nat} {pos : Nat} {a : α} {test : α → Bool}

theorem flatten_modify (lt : pos < t.length) : ∃ chain front back, t[pos]? = some chain ∧ t.flatten = front ++ (chain ++ back) ∧
      ∀ change, (t.modify pos change).flatten = front ++ (change chain ++ back) := by
  refine ⟨t[pos], (t.take pos).flatten, (t.drop (pos + 1)).flatten, List.getElem?_eq_getElem lt, ?_, fun change => ?_⟩
  · rw [← flatten_cons, ← flatten_append, ← List.drop_eq_getElem_cons lt, take_append_drop]
  · rw [modify_eq_take_cons_drop lt, flatten_append, flatten_cons]

theorem mem_flatten_iff : a ∈ t.flatten ↔ ∃ (pos : Nat) (chain : List α), t[pos]? = some chain ∧ a ∈ chain := by
  rw [List.mem_flatten]
  constructor
  · rintro ⟨chain, chainIn, mem⟩
    obtain ⟨pos, got⟩ := List.mem_iff_getElem?.mp chainIn
    exact ⟨pos, chain, got, mem⟩
  · rintro ⟨_, chain, got, mem⟩
    exact ⟨chain, List.mem_of_getElem? got, mem⟩

theorem Placed.replicate (slot : α → Nat) (cap : Nat) : Placed slot (List.replicate cap []) := by
  intro pos chain got a mem
  rw [eq_of_mem_replicate (List.mem_of_getElem? got)] at mem
  cases mem

theorem Placed.modify (placed : Placed slot t) (change : List α → List α)
    (new : ∀ chain, t[pos]? = some chain → ∀ a ∈ change chain, slot a = pos) : Placed slot (t.modify pos change) := by
  intro k chain got a mem
  rw [List.getElem?_modify] at got
  obtain ⟨old, foundOld, moved⟩ := Option.map_eq_some_iff.mp got
  by_cases here : pos = k
  · subst here
    rw [if_pos rfl] at moved
    subst moved
    exact new old foundOld a mem
  · rw [if_neg here] at moved
    subst moved
    exact placed k old foundOld a mem

theorem find_some (got : find t pos test = some a) : a ∈ t.flatten ∧ test a = true := by
  refine ⟨?_, find?_some got⟩
  have mem := mem_of_find?_eq_some got
  cases here : t[pos]? with
  | none =>
    rw [here] at mem
    cases mem
  | some chain =>
    rw [here] at mem
    exact mem_flatten_iff.mpr ⟨pos, chain, here, mem⟩

theorem Placed.find_none (placed : Placed slot t) (out : find t pos test = none)
    (mem : a ∈ t.flatten) (mine : slot a = pos) : test a = false := by
  obtain ⟨k, chain, got, aIn⟩ := mem_flatten_iff.mp mem
  have here : k = pos := (placed k chain got a aIn).symm.trans mine
  subst here
  rw [find, got] at out
  simpa using find?_eq_none.mp out a aIn

theorem insert_length (t : List (List α)) (pos : Nat) (a : α) : (insert t pos a).length = t.length := length_modify _ _ _

theorem insert_perm (lt : pos < t.length) : (insert t pos a).flatten.Perm (a :: t.flatten) := by
  obtain ⟨_, _, _, -, flattenEq, moved⟩ := flatten_modify lt
  rw [insert, moved, flattenEq]
  exact perm_middle

theorem Placed.insert (placed : Placed slot t) (mine : slot a = pos) : Placed slot (insert t pos a) := by
  refine placed.modify _ fun chain got b mem => ?_
  rcases mem_cons.mp mem with eq | older
  · rw [eq]
    exact mine
  · exact placed pos chain got b older

theorem rehash_spec (slot : α → Nat) (le : ∀ a, slot a < cap) (t : List (List α)) :
    (rehash t slot cap).length = cap ∧ Placed slot (rehash t slot cap) ∧ (rehash t slot cap).flatten.Perm t.flatten := by
  have step : ∀ (elements : List α) (grown : List (List α)), grown.length = cap → Placed slot grown →
      (elements.foldl (fun grown a => insert grown (slot a) a) grown).length = cap ∧
        Placed slot (elements.foldl (fun grown a => insert grown (slot a) a) grown) ∧
        (elements.foldl (fun grown a => insert grown (slot a) a) grown).flatten.Perm (elements ++ grown.flatten) := by
    intro elements
    induction elements with
    | nil => exact fun grown len placed => ⟨len, placed, .refl _⟩
    | cons a rest carried =>
      intro grown len placed
      obtain ⟨restLength, restPlaced, restPerm⟩ := carried (insert grown (slot a) a) ((insert_length _ _ _).trans len) (placed.insert rfl)
      refine ⟨restLength, restPlaced, restPerm.trans ?_⟩
      have new := insert_perm (a := a) (len ▸ le a : slot a < grown.length)
      exact (new.append_left rest).trans perm_middle
  rw [rehash, ← foldl_flatten]
  obtain ⟨len, placed, perm⟩ := step t.flatten (List.replicate cap []) length_replicate (.replicate slot cap)
  have empty : (List.replicate cap ([] : List α)).flatten = [] := flatten_eq_nil_iff.mpr fun _ mem => eq_of_mem_replicate mem
  rw [empty, append_nil] at perm
  exact ⟨len, placed, perm⟩

theorem onFirst_eq (edit : α → Option α) : ∀ {chain : List α}, a ∈ chain → test a = true → (∀ b ∈ chain, test b = true → b = a) →
      ∃ front back, chain = front ++ a :: back ∧ onFirst test edit chain = front ++ ((edit a).toList ++ back)
  | [], mem, _, _ => nomatch mem
  | b :: rest, mem, passes, only => by
      by_cases first : test b = true
      · refine ⟨[], rest, by rw [only b mem_cons_self first, nil_append], ?_⟩
        rw [onFirst, if_pos first, only b mem_cons_self first, nil_append]
      have later : a ∈ rest := by
        rcases mem_cons.mp mem with eq | later
        · rw [eq] at passes
          exact absurd passes first
        · exact later
      obtain ⟨front, back, restEq, edited⟩ := onFirst_eq edit later passes fun c cIn => only c (mem_cons_of_mem _ cIn)
      refine ⟨b :: front, back, by rw [restEq, cons_append], ?_⟩
      rw [onFirst, if_neg first, edited, cons_append]

/-- An edit of the element at `place` that passes the test, in the flattened table. -/
theorem Placed.onFirst (placed : Placed slot t) (mem : a ∈ t.flatten) (mine : slot a = pos) (passes : test a = true)
    (only : ∀ b ∈ t.flatten, test b = true → b = a) (eq : ∀ b, edit a = some b → slot b = slot a) :
    Placed slot (t.modify pos (onFirst test edit)) ∧ ∃ front back, t.flatten = front ++ a :: back ∧
        (t.modify pos (onFirst test edit)).flatten = front ++ ((edit a).toList ++ back) := by
  obtain ⟨k, chain, got, aIn⟩ := mem_flatten_iff.mp mem
  have here : k = pos := (placed k chain got a aIn).symm.trans mine
  subst here
  obtain ⟨front, back, chainEq, edited⟩ := onFirst_eq edit aIn passes fun b bIn => only b (mem_flatten_iff.mpr ⟨k, chain, got, bIn⟩)
  obtain ⟨chain', pre, after, found', flattenEq, moved⟩ := flatten_modify (List.getElem?_eq_some_iff.mp got).1
  rw [got] at found'
  cases found'
  refine ⟨placed.modify _ fun chain' found' b bIn => ?_, pre ++ front, back ++ after, ?_, ?_⟩
  · rw [got] at found'
    cases found'
    rw [edited] at bIn
    rcases mem_append.mp bIn with first | rest
    · exact placed k chain got b (by rw [chainEq]; exact mem_append_left _ first)
    rcases mem_append.mp rest with new | last
    · rw [Option.mem_toList] at new
      rw [eq b new, mine]
    · exact placed k chain got b (by rw [chainEq]; exact mem_append_right _ (.tail _ last))
  · rw [flattenEq, chainEq]
    simp
  · rw [moved, edited]
    simp

theorem Placed.filter (placed : Placed slot t) (keep : α → Bool) : Placed slot (t.map (List.filter keep)) := by
  intro pos chain got a mem
  rw [List.getElem?_map] at got
  obtain ⟨old, foundOld, rfl⟩ := Option.map_eq_some_iff.mp got
  exact placed pos old foundOld a (mem_filter.mp mem).1

end BoarOS.ChainTable
