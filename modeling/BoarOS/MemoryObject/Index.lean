import BoarOS.MemoryObject.Model

namespace BoarOS.MemoryObject
open List Object

/-! # The pages of one object -/

variable {obj : Object} {page : Page} {i : Nat}

theorem bucketFor_lt (i : Nat) (some_ : 0 < bucketCount) : bucketFor i bucketCount < bucketCount := by
  have := Nat.and_le_right (n := 0xff51afd7ed558ccd * (i ^^^ i >>> 33) % 2 ^ 64 ^^^
    (0xff51afd7ed558ccd * (i ^^^ i >>> 33) % 2 ^ 64) >>> 33) (m := bucketCount - 1)
  rw [bucketFor]
  omega

/-- How the recorded state of a page follows from what happened to it. -/
structure PageOk (page : Page) : Prop where
  direct : page.publication = .direct ↔ page.byGet = true ∧ page.prepared = false
  preparing : page.publication = .preparing ↔ page.byGet = false ∧ page.obtained = false
  untouched : page.publication = .direct → page.preparations = 0
  underway : page.publication = .preparing → page.preparations ≠ 0

structure ObjectOk (object : Object) : Prop where
  placed : ChainTable.Placed (fun page => object.place page.index) object.buckets
  room : object.references ≠ 0 → 0 < object.buckets.length
  distinct : (object.pages.map Page.index).Nodup
  count : object.pageCount = object.pages.length
  page : ∀ page ∈ object.pages, PageOk page
  dead : object.references = 0 → object.pages = [] ∧ object.busy = none
  missing : ∀ missing, object.busy = some missing → ∀ page ∈ object.pages, page.index ≠ missing.index

theorem ObjectOk.same_index (ok : ObjectOk obj) (mem : page ∈ obj.pages) (otherIn : k ∈ obj.pages) (eq : k.index = page.index) : k = page :=
  inj_on_of_nodup_map ok.distinct otherIn mem eq

theorem find_some (got : obj.find i = some page) : page ∈ obj.pages ∧ page.index = i := by
  obtain ⟨mem, passes⟩ := ChainTable.find_some got
  exact ⟨mem, by simpa using passes⟩

theorem ObjectOk.find_none (ok : ObjectOk obj) (out : obj.find i = none) : ∀ page ∈ obj.pages, page.index ≠ i := by
  intro page mem eq
  have fails := ok.placed.find_none out mem (by rw [eq])
  simp [eq] at fails

theorem ObjectOk.find_eq (ok : ObjectOk obj) (mem : page ∈ obj.pages) : obj.find page.index = some page := by
  cases got : obj.find page.index with
  | none => exact absurd rfl (ok.find_none got page mem)
  | some k =>
    obtain ⟨otherIn, eq⟩ := find_some got
    rw [ok.same_index mem otherIn eq]

theorem edit_length (obj : Object) (i : Nat) (edit : Page → Option Page) : (obj.edit i edit).buckets.length = obj.buckets.length :=
  length_modify _ _ _

theorem ObjectOk.edit_spec (ok : ObjectOk obj) (mem : page ∈ obj.pages) (edit : Page → Option Page)
    (eq : ∀ moved, edit page = some moved → moved.index = page.index) :
    ChainTable.Placed (fun other => (obj.edit page.index edit).place other.index) (obj.edit page.index edit).buckets ∧
    ∃ front back, obj.pages = front ++ page :: back ∧ (obj.edit page.index edit).pages = front ++ ((edit page).toList ++ back) := by
  have pos : ∀ other, (obj.edit page.index edit).place other = obj.place other := fun other => by
    rw [place, edit_length, place]
  simp only [pos]
  exact ok.placed.onFirst mem rfl (by simp) (fun other otherIn passes => ok.same_index mem otherIn (by simpa using passes))
    (fun moved edited => by rw [eq moved edited])

theorem ObjectOk.edit (ok : ObjectOk obj) (inside : page ∈ obj.pages) (edit : Page → Option Page)
    (edited : edit page = some moved) (eq : moved.index = page.index) (pageOk : PageOk moved) :
    ObjectOk (obj.edit page.index edit) ∧ (obj.edit page.index edit).pages.length = obj.pages.length ∧
      ∀ k, k ∈ (obj.edit page.index edit).pages ↔ k = moved ∨ (k ∈ obj.pages ∧ k.index ≠ page.index) := by
  obtain ⟨placed, _, _, pagesEq, editedEq⟩ := ok.edit_spec inside edit fun k got => by
    rw [edited] at got
    cases got
    exact eq
  have distinct := ok.distinct
  rw [edited, Option.toList_some, singleton_append] at editedEq
  rw [pagesEq, map_append, map_cons, nodup_middle] at distinct
  have mem : ∀ k, k ∈ (obj.edit page.index edit).pages ↔ k = moved ∨ (k ∈ obj.pages ∧ k.index ≠ page.index) := by
    intro k
    have apart := (nodup_cons.mp distinct).1
    rw [← map_append, mem_map, not_exists] at apart
    rw [editedEq, pagesEq]
    simp only [mem_append, mem_cons] at apart ⊢
    constructor
    · rintro (first | here | last)
      · exact .inr ⟨.inl first, fun equal => apart k ⟨.inl first, equal⟩⟩
      · exact .inl here
      · exact .inr ⟨.inr (.inr last), fun equal => apart k ⟨.inr last, equal⟩⟩
    rintro (here | ⟨first | old | last, ne⟩)
    · exact .inr (.inl here)
    · exact .inl first
    · rw [old] at ne
      exact absurd rfl ne
    · exact .inr (.inr last)
  refine ⟨⟨placed, fun live => by rw [edit_length]; exact ok.room live, ?_, ?_, ?_, fun dead => ?_, ?_⟩, ?_, mem⟩
  · rw [editedEq, map_append, map_cons, nodup_middle, eq]
    exact distinct
  · rw [show (obj.edit page.index edit).pageCount = obj.pageCount from rfl, ok.count, editedEq, pagesEq]
    simp
  · intro k otherIn
    rcases (mem k).mp otherIn with here | ⟨old, -⟩
    · rw [here]
      exact pageOk
    · exact ok.page k old
  · rw [(ok.dead dead).1] at inside
    cases inside
  · intro miss busy k otherIn
    rcases (mem k).mp otherIn with here | ⟨old, -⟩
    · rw [here, eq]
      exact ok.missing miss busy page inside
    · exact ok.missing miss busy k old
  · rw [editedEq, pagesEq]
    simp

def Object.without (object : Object) (index : Nat) : Object :=
  { object.edit index fun _ => none with pageCount := object.pageCount - 1 }

theorem ObjectOk.without (ok : ObjectOk obj) (inside : page ∈ obj.pages) :
    ObjectOk (obj.without page.index) ∧ (obj.without page.index).pages.length + 1 = obj.pages.length ∧
      ∀ k, k ∈ (obj.without page.index).pages ↔ k ∈ obj.pages ∧ k.index ≠ page.index := by
  obtain ⟨placed, front, back, pagesEq, editedEq⟩ := ok.edit_spec inside (fun _ => none) fun k got => nomatch got
  have distinct := ok.distinct
  rw [Option.toList_none, nil_append] at editedEq
  rw [pagesEq, map_append, map_cons, nodup_middle] at distinct
  have pagesEq' : (obj.without page.index).pages = front ++ back := editedEq
  have mem : ∀ k, k ∈ (obj.without page.index).pages ↔ k ∈ obj.pages ∧ k.index ≠ page.index := by
    intro k
    have apart := (nodup_cons.mp distinct).1
    rw [← map_append, mem_map, not_exists] at apart
    rw [pagesEq', pagesEq]
    simp only [mem_append, mem_cons] at apart ⊢
    constructor
    · rintro (first | last)
      · exact ⟨.inl first, fun equal => apart k ⟨.inl first, equal⟩⟩
      · exact ⟨.inr (.inr last), fun equal => apart k ⟨.inr last, equal⟩⟩
    rintro ⟨first | old | last, ne⟩
    · exact .inl first
    · rw [old] at ne
      exact absurd rfl ne
    · exact .inr last
  have len : (obj.without page.index).pages.length + 1 = obj.pages.length := by
    rw [pagesEq', pagesEq]
    simp only [length_append, length_cons]
    omega
  refine ⟨⟨placed, fun live => ?_, ?_, ?_, ?_, fun dead => ?_, ?_⟩, len, mem⟩
  · change 0 < (obj.edit page.index fun _ => none).buckets.length
    rw [edit_length]
    exact ok.room live
  · rw [pagesEq', map_append]
    exact (nodup_cons.mp distinct).2
  · change obj.pageCount - 1 = (obj.without page.index).pages.length
    have := ok.count
    omega
  · exact fun k otherIn => ok.page k ((mem k).mp otherIn).1
  · rw [(ok.dead dead).1] at inside
    cases inside
  · exact fun miss busy k otherIn => ok.missing miss busy k ((mem k).mp otherIn).1

theorem ObjectOk.insert (ok : ObjectOk obj) (live : obj.references ≠ 0)
    (new : ∀ k ∈ obj.pages, k.index ≠ page.index) (pageOk : PageOk page) :
    ObjectOk { obj.insert page with busy := none } ∧ (obj.insert page).pages.length = obj.pages.length + 1 ∧
      ∀ k, k ∈ (obj.insert page).pages ↔ k = page ∨ k ∈ obj.pages := by
  have len : (obj.insert page).buckets.length = obj.buckets.length := ChainTable.insert_length _ _ _
  have perm : (obj.insert page).pages.Perm (page :: obj.pages) := ChainTable.insert_perm (bucketFor_lt page.index (ok.room live))
  have mem : ∀ k, k ∈ (obj.insert page).pages ↔ k = page ∨ k ∈ obj.pages := fun k => perm.mem_iff.trans mem_cons
  refine ⟨⟨?_, fun _ => ?_, ?_, ?_, ?_, fun dead => absurd dead live, fun _ busy => nomatch busy⟩, perm.length_eq, mem⟩
  · have pos : ∀ i, (obj.insert page).place i = obj.place i := fun i => by
      rw [place, len, place]
    change ChainTable.Placed (fun k : Page => (obj.insert page).place k.index) _
    simp only [pos]
    exact ok.placed.insert rfl
  · change 0 < (obj.insert page).buckets.length
    rw [len]
    exact ok.room live
  · refine (perm.map Page.index).nodup_iff.mpr (nodup_cons.mpr ⟨fun inside => ?_, ok.distinct⟩)
    obtain ⟨k, otherIn, eq⟩ := mem_map.mp inside
    exact new k otherIn eq
  · change obj.pageCount + 1 = (obj.insert page).pages.length
    rw [perm.length_eq, length_cons, ok.count]
  · intro k otherIn
    rcases (mem k).mp otherIn with here | old
    · rw [here]
      exact pageOk
    · exact ok.page k old

theorem ObjectOk.grow (ok : ObjectOk obj) (live : obj.references ≠ 0) (done : growBuckets obj heap = (st, grown)) :
    ObjectOk grown ∧ grown.pages.Perm obj.pages ∧ grown.budget = obj.budget ∧
      grown.references = obj.references ∧ grown.busy = obj.busy := by
  unfold growBuckets at done
  split at done
  · cases done
    exact ⟨ok, .refl _, rfl, rfl, rfl⟩
  split at done
  · cases done
    exact ⟨ok, .refl _, rfl, rfl, rfl⟩
  cases heap with
  | empty | other =>
    cases done
    exact ⟨ok, .refl _, rfl, rfl, rfl⟩
  | ok =>
    cases done
    have room := ok.room live
    have le : ∀ page : Page, bucketFor page.index (obj.buckets.length * 2) < obj.buckets.length * 2 :=
      fun page => bucketFor_lt page.index (by omega)
    obtain ⟨len, placed, perm⟩ := ChainTable.rehash_spec _ le obj.buckets
    refine ⟨⟨?_, fun _ => by rw [len]; omega, ?_, ?_, ?_, fun dead => absurd dead live, ?_⟩, perm, rfl, rfl, rfl⟩
    · simp only [place, len]
      exact placed
    · exact (perm.map Page.index).nodup_iff.mpr ok.distinct
    · exact ok.count.trans perm.length_eq.symm
    · exact fun page mem => ok.page page (perm.mem_iff.mp mem)
    · exact fun miss busy page mem => ok.missing miss busy page (perm.mem_iff.mp mem)

end BoarOS.MemoryObject
