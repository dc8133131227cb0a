import BoarOS.Data.UpdatedMap
import Mathlib.Data.List.Nodup

namespace BoarOS.Data
open Function List

/-! # Items in one place at a time

Parties make items, put them into stores and take them out. `place` says where the item
of each name is; `Custody` ties it to what the parties and the stores really have.
-/

inductive Place (ρ : Type) where
  | unborn
  | outgoing (party : Nat)
  | stored (store : Nat)
  | held (party : Nat)
  | gone (reason : ρ)
deriving DecidableEq

/-- The party that has the item, to give away or to keep. -/
def Place.owner {ρ : Type} : Place ρ → Option Nat
  | .outgoing t | .held t => some t
  | _ => none

structure Party (α : Type) where
  sends : Bool
  item : Option α

def Party.place {α : Type} (party : Party α) (ρ : Type) (t : Nat) : Place ρ :=
  if party.sends then .outgoing t else .held t

variable {α ρ : Type} {name : α → Nat}

structure Custody (name : α → Nat) (parties : Nat → Party α) (stores : Nat → List α) (place : Nat → Place ρ)
    (nextName : Nat) : Prop where
  holds : ∀ t a, (parties t).item = some a → place (name a) = (parties t).place ρ t
  owned : ∀ t n, (place n).owner = some t → ∃ a, (parties t).item = some a ∧ name a = n
  storedIn : ∀ q, ∀ a ∈ stores q, place (name a) = .stored q
  storedOf : ∀ q n, place n = .stored q → ∃ a ∈ stores q, name a = n
  nodup : ∀ q, ((stores q).map name).Nodup
  fresh : ∀ n, nextName ≤ n → place n = .unborn

variable {parties : Nat → Party α} {stores : Nat → List α} {pos : Nat → Place ρ} {nextName t u q : Nat} {a b : α}
  {party : Party α}

namespace Custody

theorem place_inj {one two : Party α} (eq : one.place ρ t = two.place ρ u) : t = u := by
  unfold Party.place at eq
  split at eq <;> split at eq <;> cases eq <;> rfl

section
variable (inv : Custody name parties stores pos nextName)
include inv

theorem name_inj (mine : (parties t).item = some a) (theirs : (parties u).item = some b) (eq : name a = name b) : t = u := by
  have here := inv.holds t a mine
  rw [eq, inv.holds u b theirs] at here
  exact (place_inj here).symm

theorem unstored (mine : (parties t).item = some a) (mem : b ∈ stores q) : name b ≠ name a := by
  intro eq
  have here := inv.holds t a mine
  rw [← eq, inv.storedIn q b mem] at here
  unfold Party.place at here
  split at here <;> cases here

theorem named (mine : (parties t).item = some a) : name a < nextName := by
  by_contra high
  have here := inv.holds t a mine
  rw [inv.fresh _ (Nat.not_lt.mp high)] at here
  unfold Party.place at here
  split at here <;> cases here

theorem named_stored (mem : a ∈ stores q) : name a < nextName := by
  by_contra high
  have here := inv.storedIn q a mem
  rw [inv.fresh _ (Nat.not_lt.mp high)] at here
  cases here

theorem outgoing_iff : pos n = .outgoing t ↔ (parties t).sends = true ∧ ∃ a, (parties t).item = some a ∧ name a = n := by
  constructor
  · intro there
    obtain ⟨a, mine, rfl⟩ := inv.owned t n (by rw [there]; rfl)
    rw [inv.holds t a mine, Party.place] at there
    split at there
    next sends => exact ⟨sends, a, mine, rfl⟩
    · cases there
  · rintro ⟨sends, a, mine, rfl⟩
    rw [inv.holds t a mine, Party.place, if_pos sends]

theorem held_iff : pos n = .held t ↔ (parties t).sends = false ∧ ∃ a, (parties t).item = some a ∧ name a = n := by
  constructor
  · intro there
    obtain ⟨a, mine, rfl⟩ := inv.owned t n (by rw [there]; rfl)
    rw [inv.holds t a mine, Party.place] at there
    split at there
    · cases there
    next gets => exact ⟨Bool.not_eq_true _ ▸ gets, a, mine, rfl⟩
  · rintro ⟨gets, a, mine, rfl⟩
    rw [inv.holds t a mine, Party.place, if_neg (by simp [gets])]

theorem frame (item : party.item = (parties t).item) (sends : party.item ≠ none → party.sends = (parties t).sends) :
    Custody name (update parties t party) stores pos nextName := by
  refine { inv with holds := fun u a at_ => ?_, owned := fun u n at_ => ?_ }
  · by_cases here : u = t
    · subst here
      rw [update_self] at at_ ⊢
      rw [Party.place, sends (by simp [at_])]
      exact inv.holds u a (item.symm.trans at_)
    · rw [update_of_ne here] at at_ ⊢
      exact inv.holds u a at_
  obtain ⟨a, mine, eq⟩ := inv.owned u n at_
  by_cases here : u = t
  · subst here
    rw [update_self, item]
    exact ⟨a, mine, eq⟩
  · rw [update_of_ne here]
    exact ⟨a, mine, eq⟩

theorem released (mine : (parties t).item = some a) (empty : party.item = none) (away : goal.owner = none) :
    (∀ u b, (update parties t party u).item = some b → update pos (name a) goal (name b) = (update parties t party u).place ρ u) ∧
    ∀ u n, (update pos (name a) goal n).owner = some u → ∃ b, (update parties t party u).item = some b ∧ name b = n := by
  refine ⟨fun u b at_ => ?_, fun u n at_ => ?_⟩
  · by_cases here : u = t
    · subst here
      rw [update_self, empty] at at_
      cases at_
    · rw [update_of_ne here] at at_ ⊢
      rw [update_of_ne fun eq => here (inv.name_inj at_ mine eq)]
      exact inv.holds u b at_
  by_cases eq : n = name a
  · rw [eq, update_self, away] at at_
    cases at_
  rw [update_of_ne eq] at at_
  obtain ⟨b, theirs, named⟩ := inv.owned u n at_
  have here : u ≠ t := by
    rintro rfl
    rw [mine] at theirs
    cases theirs
    exact eq named.symm
  rw [update_of_ne here]
  exact ⟨b, theirs, named⟩

theorem store (mine : (parties t).item = some a) (empty : party.item = none) (q : Nat) :
    Custody name (update parties t party) (update stores q (stores q ++ [a])) (update pos (name a) (.stored q)) nextName := by
  obtain ⟨holds, owned⟩ := inv.released mine empty (show (Place.stored q).owner = none from rfl)
  refine ⟨holds, owned, fun r b mem => ?_, fun r n at_ => ?_, fun r => ?_, fun n high => ?_⟩
  · by_cases here : r = q
    · subst here
      rw [update_self] at mem
      rcases mem_append.mp mem with old | new
      · rw [update_of_ne (inv.unstored mine old)]
        exact inv.storedIn r b old
      · rw [mem_singleton.mp new, update_self]
    · rw [update_of_ne here] at mem
      rw [update_of_ne (inv.unstored mine mem)]
      exact inv.storedIn r b mem
  · obtain ⟨eq, ⟨⟩⟩ | ⟨_, at_⟩ := of_update_eq at_
    · exact ⟨a, by simp, eq.symm⟩
    · obtain ⟨b, mem, named⟩ := inv.storedOf r n at_
      by_cases here : r = q
      · subst here
        exact ⟨b, by rw [update_self]; exact mem_append_left _ mem, named⟩
      · exact ⟨b, by rwa [update_of_ne here], named⟩
  · by_cases here : r = q
    · subst here
      rw [update_self, map_append, map_singleton]
      refine List.Nodup.append (inv.nodup r) (nodup_singleton _) fun n mem eq => ?_
      obtain ⟨b, old, rfl⟩ := mem_map.mp mem
      exact inv.unstored mine old (mem_singleton.mp eq)
    · rw [update_of_ne here]
      exact inv.nodup r
  · have low := inv.named mine
    rw [update_of_ne (by omega)]
    exact inv.fresh n high

theorem retire (mine : (parties t).item = some a) (empty : party.item = none) (why : ρ) :
    Custody name (update parties t party) stores (update pos (name a) (.gone why)) nextName := by
  obtain ⟨holds, owned⟩ := inv.released mine empty (show (Place.gone why).owner = none from rfl)
  refine { inv with
    holds
    owned
    storedIn := fun r b mem => ?_
    storedOf := fun r n at_ => ?_
    fresh := fun n high => ?_ }
  · rw [update_of_ne (inv.unstored mine mem)]
    exact inv.storedIn r b mem
  · obtain ⟨_, ⟨⟩⟩ | ⟨_, at_⟩ := of_update_eq at_
    exact inv.storedOf r n at_
  · have low := inv.named mine
    rw [update_of_ne (by omega)]
    exact inv.fresh n high

theorem obtain (perm : (stores q).Perm (a :: rest)) (empty : (parties t).item = none)
    (gets : party.item = some a) (receives : party.sends = false) :
    Custody name (update parties t party) (update stores q rest) (update pos (name a) (.held t)) nextName := by
  have mem : a ∈ stores q := perm.mem_iff.mpr mem_cons_self
  have nodup := (perm.map name).nodup_iff.mp (inv.nodup q)
  rw [map_cons, nodup_cons] at nodup
  refine ⟨fun u b at_ => ?_, fun u n at_ => ?_, fun r b left => ?_, fun r n at_ => ?_, fun r => ?_, fun n high => ?_⟩
  · by_cases here : u = t
    · subst here
      rw [update_self] at at_ ⊢
      rw [gets] at at_
      cases at_
      rw [update_self, Party.place, receives]
      rfl
    · rw [update_of_ne here] at at_ ⊢
      rw [update_of_ne (inv.unstored at_ mem).symm]
      exact inv.holds u b at_
  · by_cases eq : n = name a
    · rw [eq, update_self] at at_
      cases at_
      rw [update_self]
      exact ⟨a, gets, eq.symm⟩
    · rw [update_of_ne eq] at at_
      obtain ⟨b, theirs, named⟩ := inv.owned u n at_
      have here : u ≠ t := by
        rintro rfl
        rw [empty] at theirs
        cases theirs
      rw [update_of_ne here]
      exact ⟨b, theirs, named⟩
  · by_cases here : r = q
    · subst here
      rw [update_self] at left
      rw [update_of_ne fun eq => nodup.1 (by rw [← eq]; exact mem_map_of_mem left)]
      exact inv.storedIn r b (perm.mem_iff.mpr (.tail _ left))
    · rw [update_of_ne here] at left
      have ne : name b ≠ name a := by
        intro eq
        have there := inv.storedIn r b left
        rw [eq, inv.storedIn q a mem] at there
        cases there
        exact here rfl
      rw [update_of_ne ne]
      exact inv.storedIn r b left
  · obtain ⟨_, ⟨⟩⟩ | ⟨eq, at_⟩ := of_update_eq at_
    obtain ⟨b, old, named⟩ := inv.storedOf r n at_
    by_cases here : r = q
    · subst here
      rw [update_self]
      rcases mem_cons.mp (perm.mem_iff.mp old) with rfl | left
      · exact absurd named.symm eq
      · exact ⟨b, left, named⟩
    · rw [update_of_ne here]
      exact ⟨b, old, named⟩
  · by_cases here : r = q
    · subst here
      rw [update_self]
      exact nodup.2
    · rw [update_of_ne here]
      exact inv.nodup r
  · have low := inv.named_stored mem
    rw [update_of_ne (by omega)]
    exact inv.fresh n high

theorem pass (mine : (parties t).item = some a) (empty : party.item = none) (free : (parties u).item = none)
    (gets : taker.item = some a) (receives : taker.sends = false) :
    Custody name (update (update parties t party) u taker) stores (update pos (name a) (.held u)) nextName := by
  have differ : u ≠ t := by
    rintro rfl
    rw [mine] at free
    cases free
  have kept := inv.store mine empty 0
  have back : (update stores 0 (stores 0 ++ [a]) 0).Perm (a :: stores 0) := by
    rw [update_self]
    exact perm_append_singleton a (stores 0)
  have taken := kept.obtain (t := u) back (by rwa [update_of_ne differ]) gets receives
  rw [update_idem, update_idem, update_eq_self] at taken
  exact taken

theorem begin (empty : (parties t).item = none) (gets : party.item = some a) (sends : party.sends = true) (new : name a = nextName) :
    Custody name (update parties t party) stores (update pos (name a) (.outgoing t)) (nextName + 1) := by
  refine ⟨fun u b at_ => ?_, fun u n at_ => ?_, fun r b mem => ?_, fun r n at_ => ?_, inv.nodup, fun n high => ?_⟩
  · by_cases here : u = t
    · subst here
      rw [update_self] at at_ ⊢
      rw [gets] at at_
      cases at_
      rw [update_self, Party.place, sends]
      rfl
    · rw [update_of_ne here] at at_ ⊢
      have low := inv.named at_
      rw [update_of_ne (by omega)]
      exact inv.holds u b at_
  · by_cases eq : n = name a
    · rw [eq, update_self] at at_
      cases at_
      rw [update_self]
      exact ⟨a, gets, eq.symm⟩
    rw [update_of_ne eq] at at_
    obtain ⟨b, theirs, named⟩ := inv.owned u n at_
    have here : u ≠ t := by
      rintro rfl
      rw [empty] at theirs
      cases theirs
    rw [update_of_ne here]
    exact ⟨b, theirs, named⟩
  · have low := inv.named_stored mem
    rw [update_of_ne (by omega)]
    exact inv.storedIn r b mem
  · obtain ⟨_, ⟨⟩⟩ | ⟨_, at_⟩ := of_update_eq at_
    exact inv.storedOf r n at_
  · rw [update_of_ne (by omega)]
    exact inv.fresh n (by omega)

theorem discard (q : Nat) (why : ρ) [DecidableEq ρ] : Custody name parties (update stores q [])
      (fun n => if pos n = .stored q then .gone why else pos n) nextName := by
  refine ⟨fun u b at_ => ?_, fun u n at_ => ?_, fun r b mem => ?_, fun r n at_ => ?_, fun r => ?_, fun n high => ?_⟩
  · rw [if_neg, inv.holds u b at_]
    rw [inv.holds u b at_, Party.place]
    split <;> nofun
  · split at at_
    · cases at_
    · exact inv.owned u n at_
  · by_cases here : r = q
    · subst here
      rw [update_self] at mem
      cases mem
    · rw [update_of_ne here] at mem
      rw [if_neg, inv.storedIn r b mem]
      rw [inv.storedIn r b mem]
      intro eq
      cases eq
      exact here rfl
  · split at at_
    · cases at_
    next kept =>
      have here : r ≠ q := by
        rintro rfl
        exact kept at_
      rw [update_of_ne here]
      exact inv.storedOf r n at_
  · by_cases here : r = q
    · subst here
      rw [update_self]
      exact nodup_nil
    · rw [update_of_ne here]
      exact inv.nodup r
  · rw [inv.fresh n high]
    rfl

end
end Custody
end BoarOS.Data
