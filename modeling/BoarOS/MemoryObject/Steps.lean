import BoarOS.MemoryObject.Frames

namespace BoarOS.MemoryObject
open Function List Option Machine

/-! # What the operations on single pages do -/

structure Page.Continues (page later : Page) : Prop where
  index : later.index = page.index
  physicalAddress : later.physicalAddress = page.physicalAddress
  byGet : later.byGet = page.byGet
  prepared : page.prepared = true → later.prepared = true
  obtained : page.obtained = true → later.obtained = true

theorem Page.Continues.refl (page : Page) : page.Continues page := ⟨rfl, rfl, rfl, id, id⟩

variable {page : Page} {m : Machine}

def Machine.refer (m : Machine) (address count : Nat) : Machine :=
  { m with references := update m.references address count }

def Machine.uncharged (m : Machine) (budget : Option Nat) (count : Nat) : Machine :=
  { m with
    sharedAnonPages := m.sharedAnonPages - count
    used := fun account => if budget = some account then m.used account - count else m.used account }

theorem PageOk.join (ok : PageOk page) (prep : Bool) : PageOk (page.join prep) := by
  obtain ⟨_, _⟩ := ok
  cases prep with
  | true =>
    refine ⟨?_, ?_, fun unprepared => ?_, fun _ => Nat.succ_ne_zero _⟩ <;> simp only [Page.join, if_true] at * <;> split at * <;> simp_all
  | false =>
    refine ⟨?_, ?_, fun unprepared => ?_, fun still => ?_⟩ <;>
      simp only [Page.join, Bool.false_eq_true, if_false] at * <;> split at * <;> simp_all

theorem Page.Continues.join (page : Page) (prep : Bool) : page.Continues (page.join prep) := by
  cases prep with
  | true => exact ⟨rfl, rfl, rfl, fun _ => rfl, id⟩
  | false => exact ⟨rfl, rfl, rfl, id, fun _ => rfl⟩

theorem getPageLookup_found (got : v.find i = some page) (live : m.references page.physicalAddress ≠ 0)
    (room : m.references page.physicalAddress < uint32Max) (few : page.preparations < uint32Max) :
    getPageLookup m v i prep heap = some (some { status := .ok, address := page.physicalAddress },
      m.refer page.physicalAddress (m.references page.physicalAddress + 1),
      v.edit i fun page => some (page.join prep)) := by
  rw [getPageLookup, got]
  simp only
  rw [physicalPageAcquire, if_neg (by omega)]
  simp only
  rw [if_neg (by omega), refer]

theorem unaccountPage_eq (shared : 0 < m.sharedAnonPages)
    (used : ∀ acc, fuel = some acc → 0 < m.used acc) : unaccountPage m fuel = some (m.uncharged fuel 1) := by
  rw [unaccountPage, uncharge, if_neg (by omega)]
  cases fuel with
  | none => simp [uncharged]
  | some acc =>
    have charged := used acc rfl
    simp only
    rw [uncharge, if_neg (by omega), map_some, uncharged]
    congr 2
    funext k
    by_cases eq : k = acc
    · rw [eq, update_self, if_pos rfl]
    · rw [update_of_ne eq, if_neg fun equal => eq (some.inj equal).symm]

theorem removePage_eq (m : Machine) (v : Object) (i addr : Nat) (shared : 0 < m.sharedAnonPages)
    (used : ∀ acc, v.budget = some acc → 0 < m.used acc) (live : m.references addr ≠ 0) :
    removePage m v i addr = some ((m.uncharged v.budget 1).refer addr (m.references addr - 1), v.without i) := by
  have unaccounted : unaccountPage m (v.edit i fun _ => none).budget = some (m.uncharged v.budget 1) := unaccountPage_eq shared used
  rw [removePage]
  simp only
  rw [← Object.without, unaccounted]
  simp only
  rw [physicalPageRelease, if_neg (show (m.uncharged v.budget 1).references addr ≠ 0 from live), map_some, refer]
  rfl

variable {ι : Type} [PageGeometry] {s s' : System ι} {object obj : ι} {step : Step ι} {pend : List (Token ι)}

/-- Clients own the objects they name, hold the frames they drop, share or write to, finish preparations they made and
accept none whose page a truncation took; the allocator returns unused frames, and no count of references overflows.
-/
def Step.Allowed (s : System ι) : Step ι → Prop
  | .create object _ => (s.objects object).references = 0
  | .acquire object => (s.objects object).references ≠ 0
  | .release object => (s.objects object).references ≠ 0 ∧
      ((s.objects object).references = 1 → (s.objects object).busy = none ∧ ∀ token ∈ s.pending, token.object ≠ object)
  | .getLookup object index _ _ => (s.objects object).references ≠ 0 ∧ (s.objects object).busy = none ∧
      ∀ page ∈ (s.objects object).pages, page.index = index → s.machine.references page.physicalAddress < uint32Max
  | .getPublish object _ frame => (s.objects object).busy.isSome ∧ ∀ address, frame = .ok address →
      s.machine.references address = 0 ∧ address % pageSize = 0 ∧ address < 2 ^ 64
  | .finish token accepted => token ∈ s.pending ∧ (s.objects token.object).busy = none ∧
      (accepted = true → ∃ page ∈ (s.objects token.object).pages, page.index = token.index ∧ page.physicalAddress = token.address)
  | .discard object _ _ => (s.objects object).references ≠ 0 ∧ (s.objects object).busy = none
  | .find object index => (s.objects object).references ≠ 0 ∧ (s.objects object).busy = none ∧
      ∀ page ∈ (s.objects object).pages, page.index = index → s.machine.references page.physicalAddress < uint32Max
  | .truncate object _ => (s.objects object).references ≠ 0 ∧ (s.objects object).busy = none
  | .share address => address ∈ s.held ∧ s.machine.references address < uint32Max
  | .drop address => address ∈ s.held
  | .write address _ _ => address ∈ s.held ∨ ∃ token ∈ s.pending, token.address = address

def Step.Removes (s : System ι) (object : ι) (page : Page) : Step ι → Prop
  | .truncate place size => place = object ∧ page.beyond size = true
  | .release place => place = object ∧ (s.objects object).references = 1
  | .finish token accepted => accepted = false ∧ token = ⟨object, page.index, page.physicalAddress⟩ ∧
      page.byGet = false ∧ page.obtained = false ∧ page.preparations = 1
  | .discard place index address => place = object ∧ index = page.index ∧ address = page.physicalAddress ∧
      page.byGet = true ∧ page.prepared = false ∧ s.machine.references address = 1
  | _ => False

/-- What became of the pages: those removed are gone, the others are still there,
and new ones are empty. -/
structure Moves (s : System ι) (step : Step ι) (after : System ι) : Prop where
  kept : ∀ object, ∀ page ∈ (s.objects object).pages, ¬ step.Removes s object page →
    ∃ later ∈ (after.objects object).pages, page.Continues later
  gone : ∀ object, ∀ page ∈ (s.objects object).pages, step.Removes s object page →
    ∀ later ∈ (after.objects object).pages, later.index ≠ page.index
  fresh : ∀ object, ∀ page ∈ (after.objects object).pages, (∀ older ∈ (s.objects object).pages, older.index ≠ page.index) →
    ∀ offset, after.machine.contents page.physicalAddress offset = 0

theorem Moves.still (removes : ∀ obj, ∀ page ∈ (s.objects obj).pages, ¬ step.Removes s obj page)
    (mem : ∀ obj page, page ∈ (s'.objects obj).pages ↔ page ∈ (s.objects obj).pages) : Moves s step s' :=
  ⟨fun obj page inside _ => ⟨page, (mem obj page).mpr inside, .refl page⟩,
    fun obj page inside gone => absurd gone (removes obj page inside),
    fun obj page inside new => absurd rfl (new page ((mem obj page).mp inside))⟩

variable [DecidableEq ι]

theorem Moves.remove (ok : ObjectOk (s.objects obj)) {drop : Page → Prop}
    (removes : ∀ pos, ∀ q ∈ (s.objects pos).pages, (step.Removes s pos q ↔ pos = obj ∧ drop q))
    (objects : ∀ k, k ≠ obj → s'.objects k = s.objects k)
    (mem : ∀ q, q ∈ (s'.objects obj).pages ↔ q ∈ (s.objects obj).pages ∧ ¬ drop q) : Moves s step s' := by
  refine ⟨fun pos q qIn stays => ?_, fun pos q qIn gone later laterIn eq => ?_, fun pos q qIn new => ?_⟩
  · rw [removes pos q qIn] at stays
    by_cases here : pos = obj
    · subst here
      exact ⟨q, (mem q).mpr ⟨qIn, fun eq => stays ⟨rfl, eq⟩⟩, .refl q⟩
    · rw [objects pos here]
      exact ⟨q, qIn, .refl q⟩
  · obtain ⟨rfl, dropped⟩ := (removes pos q qIn).mp gone
    obtain ⟨old, kept⟩ := (mem later).mp laterIn
    rw [ok.same_index qIn old eq] at kept
    exact kept dropped
  · by_cases here : pos = obj
    · subst here
      exact absurd rfl (new q ((mem q).mp qIn).1)
    · rw [objects pos here] at qIn
      exact absurd rfl (new q qIn)

variable [Fintype ι]

omit [DecidableEq ι] in
theorem Consistent.live (con : Consistent s) (mem : page ∈ (s.objects obj).pages) : (s.objects obj).references ≠ 0 := fun dead => by
  rw [((con.object obj).dead dead).1] at mem
  cases mem

theorem Consistent.object_update (con : Consistent s) (ok : ObjectOk v) (pos : ι) : ObjectOk (update s.objects obj v pos) := by
  by_cases mine : pos = obj
  · rw [mine, update_self]
    exact ok
  · rw [update_of_ne mine]
    exact con.object pos

theorem Consistent.owner_update (con : Consistent s) (live : v.references ≠ 0)
    (old : tok ∈ s.pending ∨ tok.object = obj) : (update s.objects obj v tok.object).references ≠ 0 := by
  by_cases mine : tok.object = obj
  · rw [mine, update_self]
    exact live
  · rw [update_of_ne mine]
    exact con.owner tok (old.resolve_right mine)

theorem Consistent.placed (con : Consistent s) (sole : ∀ k, ∀ q ∈ (s.objects k).pages,
      q.physicalAddress = page.physicalAddress → k = obj ∧ q.index = page.index)
    (ok : ObjectOk v) (mem : ∀ q, q ∈ v.pages ↔ q = page ∨ (q ∈ (s.objects obj).pages ∧ q.index ≠ page.index))
    (live : v.references ≠ 0) (removes : ∀ obj, ∀ page ∈ (s.objects obj).pages, ¬ step.Removes s obj page)
    (continues : ∀ q ∈ (s.objects obj).pages, q.index = page.index → q.Continues page)
    (cleared : (∀ q ∈ (s.objects obj).pages, q.index ≠ page.index) → ∀ offset, m.contents page.physicalAddress offset = 0)
    (beyond : SameBeyond s page.physicalAddress m pend held)
    (refs : m.references page.physicalAddress = 1 + (tokensAt pend page.physicalAddress).length + held.count page.physicalAddress)
    (preps : page.preparations = (tokensAt pend page.physicalAddress).length)
    (toks : ∀ tok ∈ tokensAt s.pending page.physicalAddress, tok.object = obj ∧ tok.index = page.index)
    (owner : ∀ tok ∈ pend, tok ∈ s.pending ∨ tok = ⟨obj, page.index, page.physicalAddress⟩)
    (unadopted : page.publication = .preparing → held.count page.physicalAddress = 0)
    (frame : page.physicalAddress % pageSize = 0 ∧ page.physicalAddress < 2 ^ 64)
    (counters : Counters ⟨m, update s.objects obj v, pend, held⟩) :
    Consistent ⟨m, update s.objects obj v, pend, held⟩ ∧ Moves s step ⟨m, update s.objects obj v, pend, held⟩ := by
  have other : ∀ pos, pos ≠ obj → update s.objects obj v pos = s.objects pos := fun pos ne => update_of_ne ne _ _
  have here : ∀ q, q ∈ (update s.objects obj v obj).pages ↔ q = page ∨ (q ∈ (s.objects obj).pages ∧ q.index ≠ page.index) := by
    rw [update_self]
    exact mem
  have tokensHere : ∀ tok ∈ tokensAt pend page.physicalAddress, tok.object = obj ∧ tok.index = page.index := by
    intro tok tokenIn
    obtain ⟨isPending, at_⟩ := mem_tokensAt.mp tokenIn
    rcases owner tok isPending with old | rfl
    · exact toks tok (mem_tokensAt.mpr ⟨old, at_⟩)
    · exact ⟨rfl, rfl⟩
  refine ⟨⟨con.object_update ok, ?_, fun tok tokenIn => ?_, counters⟩, ⟨fun pos q qIn _ => ?_,
    fun pos q qIn gone => absurd gone (removes pos q qIn), fun pos q qIn new => ?_⟩⟩
  · refine Elsewhere.frames ⟨other, fun q away => ?_, beyond.machine, beyond.tokens, beyond.held⟩ con.frame
      (FrameOk.placed sole other here refs preps tokensHere unadopted frame)
    rw [here]
    constructor
    · rintro (rfl | ⟨old, -⟩)
      · exact absurd rfl away
      · exact old
    · exact fun old => .inr ⟨old, fun eq => away (continues q old eq).physicalAddress.symm⟩
  · exact con.owner_update live ((owner tok tokenIn).imp_right fun new => congrArg Token.object new)
  · by_cases mine : pos = obj
    · subst mine
      by_cases eq : q.index = page.index
      · exact ⟨page, (here page).mpr (.inl rfl), continues q qIn eq⟩
      · exact ⟨q, (here q).mpr (.inr ⟨qIn, eq⟩), .refl q⟩
    · exact ⟨q, by simpa only [other pos mine] using qIn, .refl q⟩
  · by_cases mine : pos = obj
    · subst mine
      rcases (here q).mp qIn with rfl | ⟨old, -⟩
      · exact cleared new
      · exact absurd rfl (new q old)
    · simp only [other pos mine] at qIn
      exact absurd rfl (new q qIn)

theorem Consistent.edited (con : Consistent s) (inside : page ∈ (s.objects obj).pages)
    (removes : ∀ obj, ∀ page ∈ (s.objects obj).pages, ¬ step.Removes s obj page) (edit : Page → Option Page)
    (edited : edit page = some moved) (continues : page.Continues moved) (pageOk : PageOk moved)
    (beyond : SameBeyond s page.physicalAddress m pend held)
    (refs : m.references page.physicalAddress = 1 + (tokensAt pend page.physicalAddress).length + held.count page.physicalAddress)
    (preps : moved.preparations = (tokensAt pend page.physicalAddress).length)
    (owner : ∀ tok ∈ pend, tok ∈ s.pending ∨ tok = ⟨obj, page.index, page.physicalAddress⟩)
    (unadopted : moved.publication = .preparing → held.count page.physicalAddress = 0)
    (counters : m.sharedAnonPages = s.machine.sharedAnonPages ∧ m.used = s.machine.used ∧ m.limit = s.machine.limit) :
    Consistent ⟨m, update s.objects obj ((s.objects obj).edit page.index edit), pend, held⟩ ∧
      Moves s step ⟨m, update s.objects obj ((s.objects obj).edit page.index edit), pend, held⟩ := by
  obtain ⟨ok, len, mem⟩ := (con.object obj).edit inside edit edited continues.index pageOk
  have old := con.frame page.physicalAddress
  have sole := fun k q qIn => old.unique k q qIn obj page inside
  have toks := old.token obj page inside rfl
  have frame := old.frame obj page inside rfl
  rw [← continues.index] at owner toks
  rw [← continues.physicalAddress] at beyond refs preps owner unadopted toks frame
  refine con.placed (fun k q qIn here => ?_) ok (continues.index ▸ mem) (con.live inside) removes
    (fun q qIn eq => ?_) (fun new => absurd continues.index.symm (new page inside)) beyond refs preps toks owner unadopted frame ?_
  · rw [continues.index]
    exact sole k q qIn (here.trans continues.physicalAddress) rfl
  · rw [(con.object obj).same_index inside qIn (eq.trans continues.index)]
    exact continues
  refine con.counters.put rfl ?_ (fun acc => ?_) fun acc limited => ?_
  · simp [counters.1, len]
  · simp only [counters.2.1, Object.chargeTo, len]
    rfl
  · simp only [counters.2.1, counters.2.2] at limited ⊢
    exact con.counters.limit acc limited

def System.joined (s : System ι) (object : ι) (page : Page) (preparing : Bool) : System ι :=
  (s.put object (s.machine.refer page.physicalAddress (s.machine.references page.physicalAddress + 1))
    ((s.objects object).edit page.index fun page => some (page.join preparing))).handOut object page.index
      preparing { status := .ok, address := page.physicalAddress }

theorem Consistent.joined (con : Consistent s) (mem : page ∈ (s.objects obj).pages)
    (prep : Bool) (removes : ∀ obj, ∀ page ∈ (s.objects obj).pages, ¬ step.Removes s obj page) :
    Consistent (s.joined obj page prep) ∧ Moves s step (s.joined obj page prep) := by
  have ok := con.frame page.physicalAddress
  have refs := ok.references obj page mem rfl
  have preps := ok.preparations obj page mem rfl
  have away : ∀ other, other ≠ page.physicalAddress → update s.machine.references
      page.physicalAddress (s.machine.references page.physicalAddress + 1) other =
      s.machine.references other := fun other ne => update_of_ne ne _ _
  cases prep with
  | true =>
    have tok : tokensAt (⟨obj, page.index, page.physicalAddress⟩ :: s.pending) page.physicalAddress =
        ⟨obj, page.index, page.physicalAddress⟩ :: tokensAt s.pending page.physicalAddress :=
      tokensAt_cons_self _ _
    refine con.edited mem removes (fun page => some (page.join true)) rfl (Page.Continues.join page true)
      (((con.object obj).page page mem).join true)
      ⟨away, fun other ne => tokensAt_cons_other _ ne, fun _ _ => rfl⟩ ?_ ?_
      (fun tok tokenIn => (mem_cons.mp tokenIn).symm) (fun still => ?_) ⟨rfl, rfl, rfl⟩
    · change update s.machine.references _ _ _ = 1 + (tokensAt (_ :: s.pending) _).length + s.held.count _
      rw [update_self, tok, length_cons, refs]
      omega
    · change page.preparations + 1 = (tokensAt (_ :: s.pending) _).length
      rw [tok, length_cons, preps]
    refine ok.unadopted obj page mem rfl ?_
    simp only [Page.join, if_true] at still
    split at still
    · cases still
    · exact still
  | false =>
    refine con.edited mem removes (fun page => some (page.join false)) rfl (Page.Continues.join page false)
      (((con.object obj).page page mem).join false)
      ⟨away, fun _ _ => rfl, fun other ne => count_cons_of_ne (Ne.symm ne)⟩ ?_ preps
      (fun tok tokenIn => .inl tokenIn) (fun still => ?_) ⟨rfl, rfl, rfl⟩
    · change update s.machine.references _ _ _ = 1 + (tokensAt s.pending _).length + (page.physicalAddress :: s.held).count _
      rw [update_self, count_cons_self, refs]
      omega
    simp only [Page.join, Bool.false_eq_true, if_false] at still
    split at still
    · cases still
    next direct =>
      exact absurd still direct

theorem Consistent.getLookup_found (con : Consistent s) (ok : (Step.getLookup obj i prep heap).Allowed s)
    (got : (s.objects obj).find i = some page) :
    s.step (.getLookup obj i prep heap) = some ({ status := .ok, address := page.physicalAddress }, s.joined obj page prep) := by
  obtain ⟨mem, eq⟩ := find_some got
  have room := ok.2.2 page mem eq
  have refs := (con.frame page.physicalAddress).references obj page mem rfl
  have preps := (con.frame page.physicalAddress).preparations obj page mem rfl
  rw [System.step, getPageLookup_found got (by omega) room (by omega), map_some, System.joined, eq]

theorem Consistent.find_found (con : Consistent s) (ok : (Step.find obj i).Allowed s) (got : (s.objects obj).find i = some page) :
    s.step (.find obj i) = some ({ status := .ok, address := page.physicalAddress }, s.joined obj page false) := by
  obtain ⟨mem, eq⟩ := find_some got
  have room := ok.2.2 page mem eq
  have refs := (con.frame page.physicalAddress).references obj page mem rfl
  rw [System.step, kernelMemoryObjectFindPage, got]
  simp only
  rw [physicalPageAcquire, if_neg (by omega), map_some, map_some, System.joined, eq, refer]

theorem Consistent.removed (con : Consistent s) (inside : page ∈ (s.objects obj).pages)
    (removes : ∀ pos, ∀ q ∈ (s.objects pos).pages, (step.Removes s pos q ↔ pos = obj ∧ q.index = page.index))
    (beyond : SameBeyond s page.physicalAddress m pend held)
    (refs : m.references page.physicalAddress = (tokensAt pend page.physicalAddress).length + held.count page.physicalAddress)
    (owner : ∀ tok ∈ pend, tok ∈ s.pending)
    (shared : m.sharedAnonPages = s.machine.sharedAnonPages - 1)
    (used : ∀ acc, m.used acc = if (s.objects obj).budget = some acc then
      s.machine.used acc - 1 else s.machine.used acc) (lim : m.limit = s.machine.limit) :
    Consistent ⟨m, update s.objects obj ((s.objects obj).without page.index), pend, held⟩ ∧
      Moves s step ⟨m, update s.objects obj ((s.objects obj).without page.index), pend, held⟩ := by
  obtain ⟨ok, _, mem⟩ := (con.object obj).without inside
  have other : ∀ pos, pos ≠ obj → update s.objects obj ((s.objects obj).without page.index) pos = s.objects pos :=
    fun pos ne => update_of_ne ne _ _
  have here : ∀ q, q ∈ (update s.objects obj ((s.objects obj).without page.index) obj).pages ↔
      q ∈ (s.objects obj).pages ∧ q.index ≠ page.index := by
    rw [update_self]
    exact mem
  refine ⟨⟨con.object_update ok, ?_, fun tok tokenIn => ?_, ?_⟩, Moves.remove (con.object obj) removes other here⟩
  · refine Elsewhere.frames ⟨other, fun q away => ?_, beyond.machine, beyond.tokens, beyond.held⟩ con.frame
      ((con.frame page.physicalAddress).remove con.object inside other here rfl refs)
    rw [here]
    refine and_iff_left_of_imp fun old eq => away ?_
    rw [(con.object obj).same_index inside old eq]
  · refine con.owner_update ?_ (.inl (owner tok tokenIn))
    exact con.live inside
  obtain ⟨_, usedLe⟩ := con.counters.pages_le obj
  refine con.counters.put rfl ?_ (fun acc => ?_) fun acc limited => ?_
  · simp only [shared]
    omega
  · have fuel : ((s.objects obj).without page.index).budget = (s.objects obj).budget := rfl
    simp only [used acc, Object.chargeTo, fuel]
    split
    next mine =>
      have := usedLe acc mine
      omega
    · rfl
  · simp only [used acc, lim] at limited ⊢
    have := con.counters.limit acc limited
    split <;> omega

omit [DecidableEq ι] in
theorem Consistent.holders (con : Consistent s) (addr : Nat) (beyond : SameBeyond s addr m pend held)
    (here : FrameOk ⟨m, s.objects, pend, held⟩ addr) (owner : ∀ tok ∈ pend, tok ∈ s.pending)
    (counters : m.sharedAnonPages = s.machine.sharedAnonPages ∧ m.used = s.machine.used ∧
      m.limit = s.machine.limit) : Consistent ⟨m, s.objects, pend, held⟩ := by
  refine ⟨con.object, fun k => ?_, fun tok tokenIn => con.owner tok (owner tok tokenIn),
    counters.1.trans con.counters.shared, fun acc => ?_, fun acc limited => ?_⟩
  · by_cases eq : k = addr
    · rw [eq]
      exact here
    · exact (con.frame k).same (fun _ _ _ => Iff.rfl) (beyond.machine k eq) (beyond.tokens k eq) (beyond.held k eq)
  · rw [counters.2.1]
    exact con.counters.used acc
  · simp only [counters.2.1, counters.2.2] at limited ⊢
    exact con.counters.limit acc limited

/-- The step does not trap, and keeps what holds of the whole. -/
def Progress (s : System ι) (step : Step ι) : Prop :=
  ∃ reply after, s.step step = some (reply, after) ∧ Consistent after ∧ Moves s step after

omit [PageGeometry] [Fintype ι] in
theorem put_self (s : System ι) (obj : ι) : s.put obj s.machine (s.objects obj) = s := by
  rw [System.put, update_eq_self]

end BoarOS.MemoryObject
