import BoarOS.PageWriters.Invariant

namespace BoarOS.PageWriters
open List

/-! # Walks along the mappings while mappings come and go -/

section Leads
variable {aliases rest : List Nat} {link : Nat → Option Nat} {start : Option Nat}

theorem Leads.head (pre rest : List Nat) (whole : aliases = pre ++ rest) : Leads aliases link rest.head? rest := by
  cases rest with
  | nil => exact .stop
  | cons mp rest => exact .here whole

theorem Leads.attach (leads : Leads aliases link start rest) (lo : ∀ mp, start = some mp → mp < bound)
    (linked : ∀ mp next, link mp = some next → next < bound) (above : bound ≤ new)
    (links : ∀ mp, mp ≠ new → s' mp = link mp) : Leads (new :: aliases) s' start rest := by
  induction leads with
  | stop => exact .stop
  | @here mp before rest whole =>
    have longer : new :: aliases = (new :: before) ++ mp :: rest := by rw [whole]; rfl
    exact .here longer
  | @onward mp rest out _ induction =>
    have old := lo mp rfl
    have ne : mp ≠ new := by omega
    refine .onward (by simp [ne, out]) ?_
    rw [links mp ne]
    exact induction fun next linkedTo => linked mp next linkedTo

theorem successor (nodup : (pre ++ mp :: rest).Nodup) : (pre ++ mp :: rest)[(pre ++ mp :: rest).idxOf mp + 1]? = rest.head? := by
  have out : mp ∉ pre := fun mem =>
    (nodup_append.mp nodup).2.2 mp mem mp (.head _) rfl
  rw [idxOf_append_of_notMem out, idxOf_cons_self, getElem?_append_right (by omega), head?_eq_getElem?]
  simp

/-- A walk that stands at a mapping which is taken out goes on from its successor. -/
theorem Leads.detach (leads : Leads aliases link start rest) (nodup : aliases.Nodup)
    (member : gone ∈ aliases) (old : s' gone = aliases[aliases.idxOf gone + 1]?)
    (links : ∀ mp, mp ≠ gone → s' mp = link mp) : Leads (aliases.erase gone) s' start (rest.erase gone) := by
  induction leads with
  | stop => exact .stop
  | @here mp before rest whole =>
    subst whole
    obtain ⟨_, tailNodup, disjoint⟩ := nodup_append.mp nodup
    by_cases eq : gone = mp
    · subst eq
      have out : gone ∉ before := fun mem => disjoint gone mem gone (.head _) rfl
      have gap : gone ∉ rest := (nodup_cons.mp tailNodup).1
      rw [erase_append_right _ out, erase_cons_head]
      refine .onward (by simp [out, gap]) ?_
      rw [old, successor nodup]
      exact Leads.head before rest rfl
    rcases mem_append.mp member with front | back
    · have away : gone ∉ mp :: rest := fun mem => disjoint gone front gone mem rfl
      rw [erase_append_left _ front, erase_of_not_mem away]
      exact .here rfl
    have out : gone ∉ before := fun mem => disjoint gone mem gone back rfl
    rw [erase_append_right _ out, erase_cons_tail (by simpa using Ne.symm eq)]
    exact .here rfl
  | @onward mp rest out _ induction =>
    have ne : mp ≠ gone := by
      rintro rfl
      exact out member
    refine .onward (fun mem => out (mem_of_mem_erase mem)) ?_
    rw [links mp ne]
    exact induction

end Leads

section Covered
variable {s : System} {mp : Nat}

theorem Mappings.covered_head (mappings : Mappings s) (faults : ∀ task mp, s.phase task = .faulting mp → Faults s task mp)
    (first : s.aliases.head? = some mp) : s.Covered mp := by
  have mem : mp ∈ s.aliases := mem_of_head? first
  refine ⟨mappings.known mp mem, s.aliases, ?_, ?_⟩
  · rw [← first]
    exact Leads.head [] s.aliases rfl
  rintro k (fits | ⟨task, fault⟩)
  · exact mappings.listed k fits
  · exact (faults task k fault).listed

theorem System.Covered.next (seen : s.Covered mp) (mappings : Mappings s) (armed : ¬ s.Exposed mp) :
    (∀ next, s.nextAliasOf mp = some next → s.Covered next) ∧ (s.nextAliasOf mp = none → ∀ k, ¬ s.Exposed k) := by
  obtain ⟨_, rest, leads, all⟩ := seen
  suffices tail : ∃ left, Leads s.aliases s.link (s.nextAliasOf mp) left ∧ (∀ k, s.Exposed k → k ∈ left) ∧
      ∀ next, s.nextAliasOf mp = some next → next < s.nextAlias by
    obtain ⟨left, onward, exposed, le⟩ := tail
    refine ⟨fun next following => ⟨le next following, left, following ▸ onward, exposed⟩, ?_⟩
    intro ended k shown
    rw [ended] at onward
    cases onward with
    | stop => cases exposed k shown
  cases leads with
  | @here _ before rest whole =>
    have following : s.nextAliasOf mp = rest.head? := by
      rw [System.nextAliasOf, if_pos (by simp [whole]), whole]
      exact successor (whole ▸ mappings.nodup)
    refine ⟨rest, ?_, ?_, ?_⟩
    · rw [following]
      exact Leads.head (before ++ [mp]) rest (by simp [whole])
    · intro k shown
      rcases mem_cons.mp (all k shown) with eq | mem
      · exact absurd (eq ▸ shown) armed
      · exact mem
    · intro next first
      rw [following] at first
      refine mappings.known next ?_
      rw [whole]
      exact mem_append_right _ (.tail _ (mem_of_head? first))
  | onward out onward =>
    have following : s.nextAliasOf mp = s.link mp := if_neg out
    refine ⟨rest, following ▸ onward, all, ?_⟩
    intro next linkedTo
    exact mappings.linked mp next (following ▸ linkedTo)

end Covered
end BoarOS.PageWriters
