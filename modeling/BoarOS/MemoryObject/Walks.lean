import BoarOS.MemoryObject.Steps

namespace BoarOS.MemoryObject
open Function List Machine Page

/-! # Walks over all pages of an object -/

variable {fuel : Option Nat} {m s' : Machine} {gone : List Page}

structure Returned (m after : Machine) (budget : Option Nat) (gone : List Page) : Prop where
  references : ∀ address, after.references address + (gone.map Page.physicalAddress).count address = m.references address
  shared : after.sharedAnonPages + gone.length = m.sharedAnonPages
  used : ∀ account, (after.used account + if budget = some account then gone.length else 0) = m.used account
  limit : after.limit = m.limit

structure Covered (m : Machine) (budget : Option Nat) (gone : List Page) : Prop where
  references : ∀ address, (gone.map Page.physicalAddress).count address ≤ m.references address
  shared : gone.length ≤ m.sharedAnonPages
  used : ∀ account, budget = some account → gone.length ≤ m.used account

theorem Returned.nil (m : Machine) (fuel : Option Nat) : Returned m m fuel [] := ⟨fun _ => rfl, rfl, fun _ => by simp, rfl⟩

theorem Returned.append (start : Returned m mid fuel first) (rest : Returned mid s' fuel snd) : Returned m s' fuel (first ++ snd) := by
  refine ⟨fun addr => ?_, ?_, fun acc => ?_, rest.limit.trans start.limit⟩
  · have := start.references addr
    have := rest.references addr
    rw [map_append, count_append]
    omega
  · have := start.shared
    have := rest.shared
    rw [length_append]
    omega
  have pre := start.used acc
  have now := rest.used acc
  rw [length_append]
  by_cases mine : fuel = some acc
  · rw [if_pos mine] at pre now ⊢
    omega
  · rw [if_neg mine] at pre now ⊢
    omega

theorem Covered.rest (seen : Covered m fuel (first ++ snd)) (start : Returned m mid fuel first) : Covered mid fuel snd := by
  refine ⟨fun addr => ?_, ?_, fun acc mine => ?_⟩
  · have := start.references addr
    have all := seen.references addr
    rw [map_append, count_append] at all
    omega
  · have := start.shared
    have all := seen.shared
    rw [length_append] at all
    omega
  · have used := start.used acc
    have all := seen.used acc mine
    rw [length_append] at all
    rw [if_pos mine] at used
    omega

theorem Covered.first {first snd : List Page} (seen : Covered m fuel (first ++ snd)) : Covered m fuel first := by
  refine ⟨fun addr => ?_, ?_, fun acc mine => ?_⟩
  · have all := seen.references addr
    rw [map_append, count_append] at all
    omega
  · have all := seen.shared
    rw [length_append] at all
    omega
  · have all := seen.used acc mine
    rw [length_append] at all
    omega

theorem Returned.page {page : Page} (seen : Covered m fuel [page]) :
    unaccountPage m fuel = some (m.uncharged fuel 1) ∧ m.references page.physicalAddress ≠ 0 ∧
      Returned m ((m.uncharged fuel 1).refer page.physicalAddress (m.references page.physicalAddress - 1)) fuel [page] := by
  have referenced := seen.references page.physicalAddress
  have shared := seen.shared
  simp only [map_cons, map_nil, count_singleton_self, length_singleton] at referenced shared
  refine ⟨unaccountPage_eq shared fun acc mine => seen.used acc mine, by omega, fun addr => ?_, ?_, fun acc => ?_, rfl⟩
  · simp only [map_cons, map_nil, refer]
    by_cases eq : addr = page.physicalAddress
    · rw [eq, update_self, count_singleton_self]
      omega
    · rw [update_of_ne eq, count_cons_of_ne (Ne.symm eq), count_nil]
      rfl
  · simp only [refer, uncharged, length_singleton]
    omega
  · simp only [refer, uncharged, length_singleton]
    split
    next mine =>
      have := seen.used acc mine
      simp only [length_singleton] at this
      omega
    · rfl

theorem releaseChain_returned : ∀ {m : Machine} {chain : List Page}, (∀ page ∈ chain, page.preparations = 0) →
    Covered m fuel chain → ∃ s', releaseChain m fuel chain = some s' ∧ Returned m s' fuel chain
  | m, [], _, _ => ⟨m, rfl, .nil m fuel⟩
  | m, page :: rest, idle, seen => by
      obtain ⟨-, live, one⟩ := Returned.page (seen.first : Covered m fuel [page])
      have freed : physicalPageRelease m page.physicalAddress =
          some (m.refer page.physicalAddress (m.references page.physicalAddress - 1)) := if_neg live
      have unaccounted : unaccountPage (m.refer page.physicalAddress (m.references page.physicalAddress - 1)) fuel =
          some ((m.uncharged fuel 1).refer page.physicalAddress (m.references page.physicalAddress - 1)) :=
        unaccountPage_eq (lt_of_lt_of_le Nat.zero_lt_one (seen.first : Covered m fuel [page]).shared)
          fun acc mine => (seen.first : Covered m fuel [page]).used acc mine
      obtain ⟨s', walked, back⟩ := releaseChain_returned (fun k otherIn => idle k (.tail _ otherIn))
        ((seen : Covered m fuel ([page] ++ rest)).rest one)
      refine ⟨s', ?_, one.append back⟩
      rw [releaseChain, if_neg (not_not.mpr (idle page mem_cons_self)), freed]
      simp only
      rw [unaccounted]
      exact walked

theorem releaseBuckets_returned : ∀ {m : Machine} {bs : List (List Page)},
    (∀ page ∈ bs.flatten, page.preparations = 0) → Covered m fuel bs.flatten →
    ∃ s', releaseBuckets m fuel bs = some s' ∧ Returned m s' fuel bs.flatten
  | m, [], _, _ => ⟨m, rfl, .nil m fuel⟩
  | m, chain :: rest, idle, seen => by
      rw [flatten_cons] at idle seen
      obtain ⟨_, first, start⟩ := releaseChain_returned (fun page mem => idle page (mem_append_left _ mem)) seen.first
      obtain ⟨s', walked, back⟩ := releaseBuckets_returned (fun page mem => idle page (mem_append_right _ mem)) (seen.rest start)
      refine ⟨s', ?_, ?_⟩
      · rw [releaseBuckets, first]
        exact walked
      · rw [flatten_cons]
        exact start.append back

section
variable [PageGeometry] {size : Nat}

/-- Bytes only become zero, and they do in the page that is cut. -/
structure Cleared (m after : Machine) (size : Nat) (pages : List Page) : Prop where
  only : ∀ address offset, after.contents address offset = m.contents address offset ∨ after.contents address offset = 0
  tail : ∀ page ∈ pages, page.beyond size = false → page.index = size / pageSize →
    ∀ offset, size % pageSize ≤ offset → after.contents page.physicalAddress offset = 0

theorem Cleared.append (start : Cleared m mid size first) (rest : Cleared mid s' size snd) : Cleared m s' size (first ++ snd) := by
  refine ⟨fun addr offset => ?_, fun page mem stays last offset beyond => ?_⟩
  · rcases rest.only addr offset with eq | zero
    · rw [eq]
      exact start.only addr offset
    · exact .inr zero
  rcases mem_append.mp mem with early | late
  · rcases rest.only page.physicalAddress offset with eq | zero
    · rw [eq]
      exact start.tail page early stays last offset beyond
    · exact zero
  · exact rest.tail page late stays last offset beyond

theorem Cleared.same (data : s'.contents = m.contents)
    (away : page.beyond size = true ∨ page.index ≠ size / pageSize) : Cleared m s' size [page] := by
  refine ⟨fun addr offset => .inl (by rw [data]), fun k otherIn stays last => ?_⟩
  rw [mem_singleton.mp otherIn] at stays last
  rcases away with gone | elsewhere
  · rw [gone] at stays
    cases stays
  · exact absurd last elsewhere

theorem Cleared.clear (m : Machine) (page : Page) : Cleared m (m.clear page.physicalAddress (size % pageSize)) size [page] := by
  refine ⟨fun addr offset => ?_, fun k otherIn _ _ offset beyond => ?_⟩
  · simp only [Machine.clear]
    by_cases eq : addr = page.physicalAddress
    · rw [eq, update_self]
      split
      · exact .inr rfl
      · exact .inl rfl
    · rw [update_of_ne eq]
      exact .inl rfl
  · rw [mem_singleton.mp otherIn]
    simp [Machine.clear, update_self, if_pos beyond]

theorem truncateChain_returned : ∀ {m : Machine} {chain : List Page}, Covered m fuel (chain.filter (beyond · size)) →
    ∃ s', truncateChain m fuel size chain = some (s', chain.filter (fun page => !page.beyond size), (chain.filter (beyond · size)).length) ∧
      Returned m s' fuel (chain.filter (beyond · size)) ∧ Cleared m s' size chain
  | m, [], _ => ⟨m, rfl, .nil m fuel, ⟨fun _ _ => .inl rfl, nofun⟩⟩
  | m, page :: rest, seen => by
      by_cases gone : page.beyond size = true
      · rw [filter_cons_of_pos (p := (beyond · size)) gone] at seen ⊢
        obtain ⟨unaccounted, live, one⟩ := Returned.page (Covered.first seen : Covered m fuel [page])
        obtain ⟨s', walked, back, cleared⟩ := truncateChain_returned (Covered.rest (seen : Covered m fuel ([page] ++ _)) one)
        have same : Cleared m ((m.uncharged fuel 1).refer page.physicalAddress
            (m.references page.physicalAddress - 1)) size [page] := Cleared.same rfl (.inl gone)
        refine ⟨s', ?_, one.append back, same.append cleared⟩
        have freed : physicalPageRelease (m.uncharged fuel 1) page.physicalAddress =
            some ((m.uncharged fuel 1).refer page.physicalAddress (m.references page.physicalAddress - 1)) :=
          if_neg live
        rw [truncateChain, if_pos gone, unaccounted]
        simp only
        rw [freed]
        simp only
        rw [walked, Option.map_some, filter_cons_of_neg (by simp [gone])]
        rfl
      rw [filter_cons_of_neg (p := (beyond · size)) gone] at seen ⊢
      have stays : (!page.beyond size) = true := by simpa using gone
      have keep : (page :: rest).filter (fun page => !page.beyond size) =
          page :: rest.filter (fun page => !page.beyond size) := filter_cons_of_pos stays
      by_cases cut : size % pageSize ≠ 0 ∧ page.index = size / pageSize
      · have still : Covered (m.clear page.physicalAddress (size % pageSize)) fuel
            (rest.filter (beyond · size)) := ⟨seen.references, seen.shared, seen.used⟩
        obtain ⟨s', walked, back, cleared⟩ := truncateChain_returned still
        refine ⟨s', ?_, { back with }, (Cleared.clear m page).append cleared⟩
        rw [truncateChain, if_neg gone]
        simp only
        rw [if_pos cut, walked, Option.map_some, keep]
      obtain ⟨s', walked, back, cleared⟩ := truncateChain_returned seen
      have away : page.index ≠ size / pageSize := by
        intro last
        simp [beyond, last] at stays
        exact cut ⟨stays, last⟩
      refine ⟨s', ?_, back, (Cleared.same rfl (.inr away)).append cleared⟩
      rw [truncateChain, if_neg gone]
      simp only
      rw [if_neg cut, walked, Option.map_some, keep]

theorem truncateBuckets_returned : ∀ {m : Machine} {bs : List (List Page)}, Covered m fuel (bs.flatten.filter (beyond · size)) →
    ∃ s', truncateBuckets m fuel size bs = some (s', bs.map (List.filter fun page => !page.beyond size),
          (bs.flatten.filter (beyond · size)).length) ∧
      Returned m s' fuel (bs.flatten.filter (beyond · size)) ∧ Cleared m s' size bs.flatten
  | m, [], _ => ⟨m, rfl, .nil m fuel, ⟨fun _ _ => .inl rfl, nofun⟩⟩
  | m, chain :: rest, seen => by
      rw [flatten_cons, List.filter_append] at seen ⊢
      obtain ⟨_, first, start, startCleared⟩ := truncateChain_returned seen.first
      obtain ⟨s', walked, back, cleared⟩ := truncateBuckets_returned (seen.rest start)
      refine ⟨s', ?_, start.append back, startCleared.append cleared⟩
      rw [truncateBuckets, first]
      simp only
      rw [walked, Option.map_some, map_cons, length_append]

end
end BoarOS.MemoryObject
