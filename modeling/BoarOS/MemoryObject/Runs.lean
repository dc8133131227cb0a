import BoarOS.MemoryObject.Publish
import BoarOS.MemoryObject.Walks
import BoarOS.MemoryObject.Withdraw

namespace BoarOS.MemoryObject
open Function List Page Object

/-! # Runs -/

variable {ι : Type} [PageGeometry] [DecidableEq ι] [Fintype ι] {s : System ι} {obj : ι}

namespace Consistent
variable (con : Consistent s)
include con

theorem thinned (obj : ι) (keep : Page → Bool) (ok : ObjectOk v) (pages : v.pages = (s.objects obj).pages.filter keep)
    (charge : ∀ acct, v.chargeTo acct = if (s.objects obj).budget = some acct then v.pages.length else 0)
    (back : Returned s.machine m (s.objects obj).budget ((s.objects obj).pages.filter fun page => !keep page))
    (owner : ∀ tok ∈ s.pending, tok.object = obj → v.references ≠ 0)
    (removes : ∀ pos, ∀ q ∈ (s.objects pos).pages, (step.Removes s pos q ↔ pos = obj ∧ keep q = false)) :
    Consistent (s.put obj m v) ∧ Moves s step (s.put obj m v) := by
  have away : ∀ pos, pos ≠ obj → (s.put obj m v).objects pos = s.objects pos := fun pos ne => update_of_ne ne _ _
  have here : ∀ q, q ∈ ((s.put obj m v).objects obj).pages ↔ q ∈ (s.objects obj).pages ∧ ¬ keep q = false := by
    intro q
    simp only [System.put, update_self, pages, mem_filter, Bool.not_eq_false]
  have sum : ((s.objects obj).pages.filter fun page => !keep page).length + v.pages.length = (s.objects obj).pages.length := by
    rw [pages, add_comm]
    exact (length_eq_length_filter_add keep).symm
  have distinct := con.addresses_nodup obj
  refine ⟨⟨con.object_update ok, fun addr => ?_, fun tok tokenIn => ?_, ?_⟩, Moves.remove (con.object obj) removes away here⟩
  · have n := back.references addr
    by_cases gone : ∃ p ∈ (s.objects obj).pages, p.physicalAddress = addr ∧ keep p = false
    · obtain ⟨p, pIn, rfl, dropped⟩ := gone
      have once : (((s.objects obj).pages.filter fun page => !keep page).map physicalAddress).count p.physicalAddress = 1 := by
        refine count_eq_one_of_mem ((filter_sublist.map _).nodup distinct) ?_
        exact mem_map.mpr ⟨p, mem_filter.mpr ⟨pIn, by rw [dropped]; rfl⟩, rfl⟩
      have pre := (con.frame p.physicalAddress).references obj p pIn rfl
      refine (con.frame p.physicalAddress).remove con.object pIn away here dropped ?_
      change m.references p.physicalAddress = (tokensAt s.pending _).length + s.held.count _
      omega
    have none_ : (((s.objects obj).pages.filter fun page => !keep page).map physicalAddress).count addr = 0 := by
      refine count_eq_zero.mpr fun mem => ?_
      obtain ⟨p, pIn, pHere⟩ := mem_map.mp mem
      obtain ⟨old, dropped⟩ := mem_filter.mp pIn
      exact gone ⟨p, old, pHere, by simpa using dropped⟩
    refine (con.frame addr).same (fun pos q qHere => ?_) ?_ rfl rfl
    · by_cases mine : pos = obj
      · subst mine
        rw [here]
        exact and_iff_left_of_imp fun old dropped => gone ⟨q, old, qHere, dropped⟩
      · rw [away pos mine]
    · change m.references addr = s.machine.references addr
      omega
  · by_cases mine : tok.object = obj
    · rw [mine]
      simp only [System.put, update_self]
      exact owner tok tokenIn mine
    · rw [away _ mine]
      exact con.owner tok tokenIn
  · refine con.counters.put rfl ?_ (fun acct => ?_) fun acct limited => ?_
    · have := back.shared
      change m.sharedAnonPages + _ = _
      omega
    · have used := back.used acct
      change m.used acct + _ = _
      rw [charge, chargeTo]
      by_cases mine : (s.objects obj).budget = some acct
      · rw [if_pos mine] at used ⊢
        rw [if_pos mine]
        omega
      rw [if_neg mine] at used ⊢
      rw [if_neg mine]
      omega
    · have used := back.used acct
      have limitEq : m.limit acct = s.machine.limit acct := by rw [back.limit]
      change m.used acct ≤ m.limit acct
      have old := con.counters.limit acct (by rwa [← limitEq])
      omega

omit [DecidableEq ι] in
theorem covered (obj : ι) (keep : Page → Bool) : Covered s.machine (s.objects obj).budget ((s.objects obj).pages.filter keep) := by
  obtain ⟨pagesLe, usedLe⟩ := con.counters.pages_le obj
  have fewer := length_filter_le keep (s.objects obj).pages
  refine ⟨fun addr => ?_, fewer.trans pagesLe, fun acc mine => fewer.trans (usedLe acc mine)⟩
  have other : (((s.objects obj).pages.filter keep).map physicalAddress).Nodup := (filter_sublist.map _).nodup (con.addresses_nodup obj)
  by_cases mem : addr ∈ ((s.objects obj).pages.filter keep).map physicalAddress
  · obtain ⟨p, pIn, pHere⟩ := mem_map.mp mem
    have pre := (con.frame addr).references obj p (mem_filter.mp pIn).1 pHere
    rw [count_eq_one_of_mem other mem]
    omega
  · rw [count_eq_zero.mpr mem]
    exact Nat.zero_le _

theorem truncate_cleared (live : (s.objects obj).references ≠ 0) :
    ∃ s', s.step (.truncate obj size) = some ({ status := .ok }, s') ∧ Consistent s' ∧ Moves s (.truncate obj size) s' ∧
      Cleared s.machine s'.machine size (s.objects obj).pages ∧
      (s'.objects obj).pages = (s.objects obj).pages.filter fun page => !page.beyond size := by
  have ok := con.object obj
  have seen : Covered s.machine (s.objects obj).budget ((s.objects obj).buckets.flatten.filter (beyond · size)) := con.covered obj _
  obtain ⟨m, walked, back, cleared⟩ := truncateBuckets_returned seen
  have pages : ((s.objects obj).buckets.map (List.filter fun page => !page.beyond size)).flatten =
      (s.objects obj).pages.filter fun page => !page.beyond size := (filter_flatten ..).symm
  have n : (s.objects obj).pageCount - ((s.objects obj).pages.filter (beyond · size)).length =
      ((s.objects obj).pages.filter fun page => !page.beyond size).length := by
    have := length_eq_length_filter_add (l := (s.objects obj).pages) (beyond · size)
    have := ok.count
    omega
  have valueOk : ObjectOk { s.objects obj with
      buckets := (s.objects obj).buckets.map (List.filter fun page => !page.beyond size)
      pageCount := (s.objects obj).pageCount - ((s.objects obj).pages.filter (beyond · size)).length } := by
    refine ⟨?_, fun _ => ?_, ?_, ?_, fun page mem => ?_, fun dead => absurd dead live, fun miss busy page mem => ?_⟩
    · simp only [Object.place, length_map]
      exact ok.placed.filter _
    · simp only [length_map]
      exact ok.room live
    · simp only [Object.pages, pages]
      exact (filter_sublist.map _).nodup ok.distinct
    · simp only [Object.pages, pages]
      exact n
    · simp only [Object.pages, pages] at mem
      exact ok.page page (mem_filter.mp mem).1
    · simp only [Object.pages, pages] at mem
      exact ok.missing miss busy page (mem_filter.mp mem).1
  have removes : ∀ pos, ∀ q ∈ (s.objects pos).pages, ((Step.truncate obj size).Removes s pos q ↔ pos = obj ∧ (!q.beyond size) = false) := by
    intro pos q _
    rw [Bool.not_eq_false']
    exact and_congr_left' eq_comm
  obtain ⟨next, moves⟩ := con.thinned obj (fun page => !page.beyond size) valueOk pages
    (fun acc => rfl) (by simp only [Bool.not_not]; exact back) (fun _ _ _ => live) removes
  refine ⟨_, ?_, next, moves, cleared, ?_⟩
  · simp only [System.step, kernelMemoryObjectTruncate, walked, Option.map_some]
    rfl
  · simp only [System.put, update_self]
    exact pages

theorem release (allowed : (Step.release obj).Allowed s) : Progress s (.release obj) := by
  obtain ⟨live, last⟩ := allowed
  have ok := con.object obj
  by_cases one : (s.objects obj).references = 1
  · obtain ⟨-, nobody⟩ := last one
    have idle : ∀ page ∈ (s.objects obj).buckets.flatten, page.preparations = 0 := by
      intro page inside
      have frame := con.frame page.physicalAddress
      rw [frame.preparations obj page inside rfl, length_eq_zero_iff, eq_nil_iff_forall_not_mem]
      exact fun tok tokenIn => nobody tok (mem_tokensAt.mp tokenIn).1 (frame.token obj page inside rfl tok tokenIn).1
    have seen := con.covered obj fun _ => true
    rw [filter_true] at seen
    obtain ⟨m, walked, back⟩ := releaseBuckets_returned idle seen
    have empty : ObjectOk {} := (Consistent.initial s.machine.limit s.machine.contents : Consistent
      (System.initial s.machine.limit s.machine.contents : System ι)).object obj
    have removes : ∀ pos, ∀ q ∈ (s.objects pos).pages, ((Step.release obj).Removes s pos q ↔ pos = obj ∧ false = false) := by
      refine fun pos q _ => ⟨fun gone => ⟨gone.1.symm, rfl⟩, ?_⟩
      rintro ⟨rfl, -⟩
      exact ⟨rfl, one⟩
    obtain ⟨next, moves⟩ := con.thinned obj (fun _ => false) empty (by rw [filter_false]; rfl) (fun acc => by simp [chargeTo, pages])
      (by simp only [Bool.not_false, filter_true]; exact back)
      (fun tok tokenIn mine => absurd mine (nobody tok tokenIn)) removes
    refine ⟨{ status := .ok }, _, ?_, next, moves⟩
    simp only [System.step, kernelMemoryObjectRelease]
    rw [if_neg live, if_neg (not_not.mpr one), walked]
    rfl
  · have fewer : ObjectOk { s.objects obj with references := (s.objects obj).references - 1 } :=
      ⟨ok.placed, fun _ => ok.room live, ok.distinct, ok.count, ok.page, fun dead => by simp only at dead; omega, ok.missing⟩
    obtain ⟨next, mem⟩ := con.reshape obj s.machine fewer (.refl _) (fun _ => rfl)
      (fun _ => by simp only; omega) (fun _ => rfl) ⟨rfl, rfl, rfl⟩
    refine ⟨{ status := .ok }, _, ?_, next, Moves.still (fun pos q _ gone => one (gone.1 ▸ gone.2)) mem⟩
    simp only [System.step, kernelMemoryObjectRelease]
    rw [if_neg live, if_pos one]
    rfl

omit [DecidableEq ι] in
theorem reheld (addr n : Nat) (refs : n + s.held.count addr = s.machine.references addr + held.count addr)
    (nobody : s.held.count addr = 0 → held.count addr = 0) (away : ∀ k, k ≠ addr → held.count k = s.held.count k) :
    Consistent ⟨s.machine.refer addr n, s.objects, s.pending, held⟩ := by
  refine con.holders addr ⟨fun k ne => update_of_ne ne _ _, fun _ _ => rfl, away⟩
    ((con.frame addr).reheld ?_ nobody) (fun _ => id) ⟨rfl, rfl, rfl⟩
  simp only [Machine.refer, update_self]
  exact refs

omit [DecidableEq ι] in
theorem referenced (held : addr ∈ s.held) : s.machine.references addr ≠ 0 := fun free =>
  absurd (con.unused free).2.2 (count_pos_iff.mpr held).ne'

theorem share (ok : (Step.share addr).Allowed s) : Progress s (.share addr) := by
  obtain ⟨held, _⟩ := ok
  have live := con.referenced held
  have pos := count_pos_iff.mpr held
  refine ⟨{ status := .ok }, ⟨s.machine.refer addr (s.machine.references addr + 1), s.objects, s.pending,
    addr :: s.held⟩, ?_, con.reheld addr _ ?_ (fun none_ => by omega)
    (fun k ne => count_cons_of_ne (Ne.symm ne)),
    Moves.still (fun _ _ _ => id) fun _ _ => Iff.rfl⟩
  · rw [System.step, physicalPageAcquire, if_neg (by omega), Option.map_some, Machine.refer]
  rw [count_cons_self]
  omega

theorem drop (held : addr ∈ s.held) : Progress s (.drop addr) := by
  have live := con.referenced held
  have pos := count_pos_iff.mpr held
  refine ⟨{ status := .ok }, ⟨s.machine.refer addr (s.machine.references addr - 1), s.objects, s.pending,
    s.held.erase addr⟩, ?_, con.reheld addr _ ?_ (fun none_ => by omega)
    (fun k ne => count_erase_of_ne ne),
    Moves.still (fun _ _ _ => id) fun _ _ => Iff.rfl⟩
  · rw [System.step, physicalPageRelease, if_neg live, Option.map_some, Machine.refer]
  rw [count_erase_self]
  omega

theorem write (addr offset : Nat) (v : UInt8) : Progress s (.write addr offset v) := by
  refine ⟨{ status := .ok }, _, rfl, ⟨con.object, fun k => ?_, con.owner, ?_⟩, Moves.still (fun _ _ _ => id) fun _ _ => Iff.rfl⟩
  · exact (con.frame k).same (fun _ _ _ => Iff.rfl) rfl rfl rfl
  · exact ⟨con.counters.shared, con.counters.used, con.counters.limit⟩

theorem step {step : Step ι} (ok : step.Allowed s) : Progress s step := by
  cases step with
  | create obj fuel => exact con.create ok
  | acquire obj => exact con.acquire ok
  | release obj => exact con.release ok
  | getLookup obj i prep heap => exact con.getLookup ok
  | getPublish obj heap frame => exact con.getPublish ok
  | finish tok accepted => exact con.finish ok
  | discard obj i addr => exact con.discard i addr
  | find obj i => exact con.find ok
  | truncate obj size =>
    obtain ⟨s', ran, next, moves, -⟩ := con.truncate_cleared ok.1
    exact ⟨_, s', ran, next, moves⟩
  | share addr => exact con.share ok
  | drop addr => exact con.drop ok
  | write addr offset v => exact con.write addr offset v

end Consistent

inductive Reachable (limit : Nat → Nat) (contents : Nat → Nat → UInt8) : System ι → Prop
  | initial : Reachable limit contents (System.initial limit contents)
  | step {before after : System ι} {step : Step ι} {reply : Reply} (reachable : Reachable limit contents before)
      (allowed : step.Allowed before) (stepped : before.step step = some (reply, after)) :
      Reachable limit contents after

theorem Reachable.consistent (run : Reachable lim data s) : Consistent s := by
  induction run with
  | initial => exact Consistent.initial lim data
  | step _ ok ran con =>
    obtain ⟨_, _, done, next, -⟩ := con.step ok
    rw [ran] at done
    cases done
    exact next

end BoarOS.MemoryObject
