import BoarOS.MemoryObject.Index
import BoarOS.Data.FamilySum

namespace BoarOS.MemoryObject
open List

/-! # Frames, their holders and the counters -/

variable {ι : Type}

def tokensAt (pending : List (Token ι)) (address : Nat) : List (Token ι) :=
  pending.filter fun token => token.address = address

theorem mem_tokensAt : tok ∈ tokensAt pend addr ↔ tok ∈ pend ∧ tok.address = addr := by
  rw [tokensAt, mem_filter, decide_eq_true_iff]

theorem tokensAt_cons_self (tok : Token ι) (pend : List (Token ι)) :
    tokensAt (tok :: pend) tok.address = tok :: tokensAt pend tok.address :=
  filter_cons_of_pos (by simp)

theorem tokensAt_cons_other (pend : List (Token ι)) (ne : addr ≠ tok.address) : tokensAt (tok :: pend) addr = tokensAt pend addr :=
  filter_cons_of_neg (by simpa using Ne.symm ne)

theorem tokensAt_erase_other [DecidableEq ι] (pend : List (Token ι))
    (ne : addr ≠ tok.address) : tokensAt (pend.erase tok) addr = tokensAt pend addr := by
  induction pend with
  | nil => rfl
  | cons first rest carried =>
    rw [erase_cons]
    split
    next eq =>
      rw [← eq_of_beq eq] at ne
      rw [tokensAt_cons_other rest ne]
    · simp only [tokensAt, filter_cons] at carried ⊢
      rw [carried]

theorem tokensAt_erase_self [DecidableEq ι] {tok : Token ι} {pend : List (Token ι)} (mem : tok ∈ pend) :
    (tokensAt (pend.erase tok) tok.address).length + 1 = (tokensAt pend tok.address).length := by
  have perm := (perm_cons_erase mem).filter fun k => k.address = tok.address
  have len := perm.length_eq
  rw [← tokensAt, ← tokensAt, tokensAt_cons_self, length_cons] at len
  exact len.symm

section
variable [PageGeometry]

/-- The references of a frame: one of the object that indexes it, one for each
preparation and one for each client. -/
structure FrameOk (s : System ι) (address : Nat) : Prop where
  unique : ∀ first, ∀ p ∈ (s.objects first).pages, ∀ second, ∀ q ∈ (s.objects second).pages,
    p.physicalAddress = address → q.physicalAddress = address → first = second ∧ p.index = q.index
  references : ∀ object, ∀ page ∈ (s.objects object).pages, page.physicalAddress = address →
    s.machine.references address = 1 + (tokensAt s.pending address).length + s.held.count address
  preparations : ∀ object, ∀ page ∈ (s.objects object).pages, page.physicalAddress = address →
    page.preparations = (tokensAt s.pending address).length
  token : ∀ object, ∀ page ∈ (s.objects object).pages, page.physicalAddress = address →
    ∀ token ∈ tokensAt s.pending address, token.object = object ∧ token.index = page.index
  unadopted : ∀ object, ∀ page ∈ (s.objects object).pages, page.physicalAddress = address →
    page.publication = .preparing → s.held.count address = 0
  frame : ∀ object, ∀ page ∈ (s.objects object).pages, page.physicalAddress = address → address % pageSize = 0 ∧ address < 2 ^ 64
  loose : (∀ object, ∀ page ∈ (s.objects object).pages, page.physicalAddress ≠ address) →
    s.machine.references address = (tokensAt s.pending address).length + s.held.count address

variable {s s' : System ι} {object obj : ι} {page : Page} {addr : Nat}

structure SameBeyond (s : System ι) (address : Nat) (m : Machine) (pending : List (Token ι)) (held : List Nat) :
    Prop where
  machine : ∀ other, other ≠ address → m.references other = s.machine.references other
  tokens : ∀ other, other ≠ address → tokensAt pending other = tokensAt s.pending other
  held : ∀ other, other ≠ address → held.count other = s.held.count other

theorem FrameOk.same (ok : FrameOk s addr) (pages : ∀ obj page, page.physicalAddress = addr →
      (page ∈ (s'.objects obj).pages ↔ page ∈ (s.objects obj).pages)) (refs : s'.machine.references addr = s.machine.references addr)
    (tokens : tokensAt s'.pending addr = tokensAt s.pending addr) (held : s'.held.count addr = s.held.count addr) : FrameOk s' addr := by
  refine ⟨fun first p pIn snd q qIn pHere qHere => ?_, fun obj page mem here => ?_,
    fun obj page mem here => ?_, fun obj page mem here => ?_, fun obj page mem here => ?_,
    fun obj page mem here => ?_, fun none_ => ?_⟩
  · exact ok.unique first p ((pages first p pHere).mp pIn) snd q ((pages snd q qHere).mp qIn) pHere qHere
  · rw [refs, tokens, held]
    exact ok.references obj page ((pages obj page here).mp mem) here
  · rw [tokens]
    exact ok.preparations obj page ((pages obj page here).mp mem) here
  · rw [tokens]
    exact ok.token obj page ((pages obj page here).mp mem) here
  · rw [held]
    exact ok.unadopted obj page ((pages obj page here).mp mem) here
  · exact ok.frame obj page ((pages obj page here).mp mem) here
  · rw [refs, tokens, held]
    exact ok.loose fun obj page mem here =>
      none_ obj page ((pages obj page here).mpr mem) here

theorem FrameOk.placed (sole : ∀ k, ∀ q ∈ (s.objects k).pages, q.physicalAddress = page.physicalAddress →
      k = obj ∧ q.index = page.index) (objects : ∀ k, k ≠ obj → s'.objects k = s.objects k)
    (mem : ∀ q, q ∈ (s'.objects obj).pages ↔ q = page ∨ (q ∈ (s.objects obj).pages ∧ q.index ≠ page.index))
    (refs : s'.machine.references page.physicalAddress =
      1 + (tokensAt s'.pending page.physicalAddress).length + s'.held.count page.physicalAddress)
    (preps : page.preparations = (tokensAt s'.pending page.physicalAddress).length)
    (tok : ∀ tok ∈ tokensAt s'.pending page.physicalAddress, tok.object = obj ∧ tok.index = page.index)
    (unadopted : page.publication = .preparing → s'.held.count page.physicalAddress = 0)
    (frame : page.physicalAddress % pageSize = 0 ∧ page.physicalAddress < 2 ^ 64) : FrameOk s' page.physicalAddress := by
  have only : ∀ k, ∀ q ∈ (s'.objects k).pages, q.physicalAddress = page.physicalAddress → k = obj ∧ q = page := by
    intro k q qIn here
    by_cases mine : k = obj
    · subst mine
      rcases (mem q).mp qIn with eq | ⟨old, ne⟩
      · exact ⟨rfl, eq⟩
      · exact absurd (sole k q old here).2 ne
    · rw [objects k mine] at qIn
      exact absurd (sole k q qIn here).1 mine
  refine ⟨fun first p pIn snd q qIn pHere qHere => ?_, fun _ _ _ _ => refs,
    fun k q qIn qHere => ?_, fun k q qIn qHere => ?_, fun k q qIn qHere => ?_, fun _ _ _ _ => frame,
    fun none_ => absurd rfl (none_ obj page ((mem page).mpr (.inl rfl)))⟩
  · obtain ⟨rfl, rfl⟩ := only first p pIn pHere
    obtain ⟨rfl, rfl⟩ := only snd q qIn qHere
    exact ⟨rfl, rfl⟩
  · rw [(only k q qIn qHere).2]
    exact preps
  · obtain ⟨rfl, rfl⟩ := only k q qIn qHere
    exact tok
  · rw [(only k q qIn qHere).2]
    exact unadopted

theorem FrameOk.of_loose (none_ : ∀ obj, ∀ page ∈ (s'.objects obj).pages, page.physicalAddress ≠ addr)
    (refs : s'.machine.references addr = (tokensAt s'.pending addr).length + s'.held.count addr) : FrameOk s' addr :=
  ⟨fun first p pIn _ _ _ pHere => absurd pHere (none_ first p pIn), fun obj page mem here => absurd here (none_ obj page mem),
    fun obj page mem here => absurd here (none_ obj page mem),
    fun obj page mem here => absurd here (none_ obj page mem),
    fun obj page mem here => absurd here (none_ obj page mem),
    fun obj page mem here => absurd here (none_ obj page mem), fun _ => refs⟩

theorem FrameOk.reheld (ok : FrameOk s addr) (refs : m.references addr + s.held.count addr = s.machine.references addr + held.count addr)
    (nobody : s.held.count addr = 0 → held.count addr = 0) : FrameOk ⟨m, s.objects, s.pending, held⟩ addr := by
  refine ⟨ok.unique, fun obj page mem here => ?_, ok.preparations, ok.token,
    fun obj page mem here prep => nobody (ok.unadopted obj page mem here prep), ok.frame,
    fun none_ => ?_⟩
  · have := ok.references obj page mem here
    simp only
    omega
  have := ok.loose none_
  simp only
  omega

theorem FrameOk.page_unique (ok : FrameOk s page.physicalAddress) (objectOk : ∀ obj, ObjectOk (s.objects obj))
    (mem : page ∈ (s.objects obj).pages) (qIn : q ∈ (s.objects k).pages)
    (here : q.physicalAddress = page.physicalAddress) : k = obj ∧ q = page := by
  obtain ⟨otherEq, indexEq⟩ := ok.unique k q qIn obj page mem here rfl
  subst otherEq
  exact ⟨rfl, (objectOk k).same_index mem qIn indexEq⟩

structure Elsewhere (s after : System ι) (object : ι) (address : Nat) : Prop where
  objects : ∀ other, other ≠ object → after.objects other = s.objects other
  pages : ∀ page : Page, page.physicalAddress ≠ address → (page ∈ (after.objects object).pages ↔ page ∈ (s.objects object).pages)
  references : ∀ other, other ≠ address → after.machine.references other = s.machine.references other
  tokens : ∀ other, other ≠ address → tokensAt after.pending other = tokensAt s.pending other
  held : ∀ other, other ≠ address → after.held.count other = s.held.count other

theorem Elsewhere.frames (away : Elsewhere s s' obj addr) (ok : ∀ addr, FrameOk s addr)
    (here : FrameOk s' addr) : ∀ other, FrameOk s' other := by
  intro other
  by_cases eq : other = addr
  · rw [eq]
    exact here
  refine (ok other).same (fun pos page pageHere => ?_) (away.references other eq) (away.tokens other eq) (away.held other eq)
  by_cases mine : pos = obj
  · rw [mine]
    exact away.pages page (by rwa [pageHere])
  · rw [away.objects pos mine]

theorem FrameOk.remove (ok : FrameOk s page.physicalAddress) (objectOk : ∀ obj, ObjectOk (s.objects obj))
    (inside : page ∈ (s.objects obj).pages) {drop : Page → Prop} (objects : ∀ k, k ≠ obj → s'.objects k = s.objects k)
    (mem : ∀ q, q ∈ (s'.objects obj).pages ↔ q ∈ (s.objects obj).pages ∧ ¬ drop q) (dropped : drop page)
    (refs : s'.machine.references page.physicalAddress =
      (tokensAt s'.pending page.physicalAddress).length + s'.held.count page.physicalAddress) : FrameOk s' page.physicalAddress := by
  refine FrameOk.of_loose (fun k q qIn qHere => ?_) refs
  by_cases mine : k = obj
  · subst mine
    obtain ⟨old, kept⟩ := (mem q).mp qIn
    rw [(ok.page_unique objectOk inside old qHere).2] at kept
    exact kept dropped
  · rw [objects k mine] at qIn
    exact mine (ok.page_unique objectOk inside qIn qHere).1

end

def Object.chargeTo (object : Object) (account : Nat) : Nat :=
  if object.budget = some account then object.pages.length else 0

structure Counters [Fintype ι] (s : System ι) : Prop where
  shared : s.machine.sharedAnonPages = ∑ object, (s.objects object).pages.length
  used : ∀ account, s.machine.used account = ∑ object, (s.objects object).chargeTo account
  limit : ∀ account, s.machine.limit account ≠ 0 → s.machine.used account ≤ s.machine.limit account

theorem Counters.put [DecidableEq ι] [Fintype ι] {s s' : System ι} {obj : ι} (ok : Counters s) {v : Object}
    (objects : s'.objects = Function.update s.objects obj v)
    (shared : s'.machine.sharedAnonPages + (s.objects obj).pages.length = s.machine.sharedAnonPages + v.pages.length)
    (used : ∀ acc, s'.machine.used acc + (s.objects obj).chargeTo acc = s.machine.used acc + v.chargeTo acc)
    (lim : ∀ acc, s'.machine.limit acc ≠ 0 → s'.machine.used acc ≤ s'.machine.limit acc) : Counters s' := by
  refine ⟨?_, fun acc => ?_, lim⟩
  · have sum := sum_update_add s.objects (fun o => o.pages.length) obj v
    have pre := ok.shared
    rw [objects]
    omega
  have sum := sum_update_add s.objects (fun o => o.chargeTo acc) obj v
  have pre := ok.used acc
  have change := used acc
  rw [objects]
  omega

theorem Counters.pages_le [Fintype ι] (ok : Counters s) (obj : ι) :
    (s.objects obj).pages.length ≤ s.machine.sharedAnonPages ∧ ∀ acct, (s.objects obj).budget = some acct →
        (s.objects obj).pages.length ≤ s.machine.used acct := by
  refine ⟨?_, fun acct mine => ?_⟩
  · rw [ok.shared]
    exact Finset.single_le_sum (f := fun o => (s.objects o).pages.length) (fun _ _ => Nat.zero_le _) (Finset.mem_univ obj)
  have charged : (s.objects obj).chargeTo acct = (s.objects obj).pages.length := if_pos mine
  rw [ok.used, ← charged]
  exact Finset.single_le_sum (f := fun o => (s.objects o).chargeTo acct) (fun _ _ => Nat.zero_le _) (Finset.mem_univ obj)

theorem Counters.used_le_shared [Fintype ι] {s : System ι} (ok : Counters s) (acc : Nat) :
    s.machine.used acc ≤ s.machine.sharedAnonPages := by
  rw [ok.used, ok.shared]
  refine Finset.sum_le_sum fun obj _ => ?_
  rw [Object.chargeTo]
  split
  · exact le_rfl
  · exact Nat.zero_le _

structure Consistent [PageGeometry] [Fintype ι] (s : System ι) : Prop where
  object : ∀ object, ObjectOk (s.objects object)
  frame : ∀ address, FrameOk s address
  owner : ∀ token ∈ s.pending, (s.objects token.object).references ≠ 0
  counters : Counters s

theorem Consistent.addresses_nodup [PageGeometry] [Fintype ι] (con : Consistent s) (obj : ι) :
    ((s.objects obj).pages.map Page.physicalAddress).Nodup := by
  refine List.Nodup.map_on (fun p pIn q qIn eq => ?_) (List.Nodup.of_map _ (con.object obj).distinct)
  exact (con.object obj).same_index qIn pIn ((con.frame q.physicalAddress).unique obj p pIn obj q qIn eq rfl).2

theorem Consistent.initial [PageGeometry] [Fintype ι] (lim : Nat → Nat) (data : Nat → Nat → UInt8) :
    Consistent (System.initial lim data : System ι) := by
  have empty : ObjectOk {} := by
    refine ⟨fun pos chain got => ?_, fun live => absurd rfl live, nodup_nil, rfl, ?_, fun _ => ⟨rfl, rfl⟩, fun _ busy => ?_⟩
    · cases got
    · intro page mem
      cases mem
    · cases busy
  refine ⟨fun _ => empty, fun _ => FrameOk.of_loose (fun _ page mem => ?_) rfl, nofun, ?_, fun acc => ?_, fun _ _ => Nat.zero_le _⟩
  · cases mem
  · simp [System.initial, Object.pages]
  · simp [System.initial, Object.chargeTo]

end BoarOS.MemoryObject
