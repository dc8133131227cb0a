import BoarOS.MemoryObject.Steps

namespace BoarOS.MemoryObject
open Function List Finset Machine Object

/-! # New pages, and the steps that move none -/

variable {addr : Nat}

theorem getPageLookup_missing (m : Machine) (prep : Bool) (heap : HeapStatus) (out : v.find index = none) :
    getPageLookup m v index prep heap = some (some { status := .noSpace }, m, v) ∨ ∃ st grown, growBuckets v heap = (st, grown) ∧
        ((st ≠ .ok ∧ getPageLookup m v index prep heap = some (some { status := st }, m, grown)) ∨
          getPageLookup m v index prep heap = some (none, m, { grown with busy := some ⟨index, prep⟩ })) := by
  rw [getPageLookup, out]
  cases budgetFull m v.budget with
  | true => exact .inl rfl
  | false =>
    refine .inr ⟨_, _, rfl, ?_⟩
    by_cases failed : (growBuckets v heap).1 ≠ .ok
    · exact .inl ⟨failed, if_pos failed⟩
    · exact .inr (if_neg failed)

theorem newPage_ok (miss : Missing) (addr : Nat) : PageOk (newPage miss addr) := by
  cases prep : miss.preparing with
  | true | false => constructor <;> simp [newPage, prep]

theorem ObjectOk.idle (ok : ObjectOk v) : ObjectOk { v with busy := none } :=
  ⟨ok.placed, ok.room, ok.distinct, ok.count, ok.page, fun dead => ⟨(ok.dead dead).1, rfl⟩, fun _ busy => nomatch busy⟩

theorem chargeBudget_cases (m : Machine) (fuel : Option Nat) (few : ∀ acct, fuel = some acct → m.used acct < uint64Max) :
    chargeBudget m fuel = some none ∨ ∃ used, chargeBudget m fuel = some (some { m with used := used }) ∧
        (∀ acct, used acct = m.used acct + if fuel = some acct then 1 else 0) ∧
        ∀ acct, fuel = some acct → m.limit acct ≠ 0 → m.used acct < m.limit acct := by
  cases fuel with
  | none => exact .inr ⟨m.used, rfl, fun _ => rfl, fun _ mine => nomatch mine⟩
  | some acct =>
    have room := few acct rfl
    rw [chargeBudget, charge, if_neg (by omega)]
    by_cases full : m.limit acct ≠ 0 ∧ m.limit acct ≤ m.used acct
    · rw [if_pos full]
      exact .inl rfl
    rw [if_neg full]
    refine .inr ⟨_, rfl, fun k => ?_, fun k mine limited => ?_⟩
    · by_cases eq : k = acct
      · rw [eq, update_self, if_pos rfl]
      · rw [update_of_ne eq, if_neg fun equal => eq (Option.some.inj equal).symm, add_zero]
    · cases mine
      exact Nat.lt_of_not_le fun reached => full ⟨limited, reached⟩

/-- A zeroed frame with one reference for the object and one for the caller. -/
def Machine.handed (m : Machine) (address : Nat) : Machine := (m.refer address 2).clear address 0

theorem acquire_handed (m : Machine) (addr : Nat) :
    physicalPageAcquire (clear { m with references := update m.references addr 1 } addr 0) addr = some (m.handed addr) := by
  simp only [physicalPageAcquire, clear, update_self, update_idem]
  rfl

theorem release_handed {m : Machine} (free : m.references addr = 0) : ∃ once twice, physicalPageRelease (m.handed addr) addr = some once ∧
      physicalPageRelease once addr = some twice ∧ (∀ k, twice.references k = m.references k) ∧
      twice.sharedAnonPages = m.sharedAnonPages ∧ twice.used = m.used ∧ twice.limit = m.limit := by
  refine ⟨(m.handed addr).refer addr 1, ((m.handed addr).refer addr 1).refer addr 0, ?_, ?_, fun k => ?_, rfl, rfl, rfl⟩
  · simp only [physicalPageRelease, handed, clear, refer, update_self]
    rfl
  · simp only [physicalPageRelease, handed, clear, refer, update_self]
    rfl
  by_cases eq : k = addr
  · rw [eq, free]
    simp only [refer, update_self]
  · simp only [refer, handed, clear, update_of_ne eq]

variable {ι : Type} [PageGeometry] [DecidableEq ι] [Fintype ι] {s : System ι} {obj : ι} {page : Page}
variable {index : Nat} {heap : HeapStatus}

namespace Consistent
variable (con : Consistent s)
include con

theorem reshape (obj : ι) (m : Machine) (ok : ObjectOk v)
    (perm : v.pages.Perm (s.objects obj).pages) (charge : ∀ acc, v.chargeTo acc = (s.objects obj).chargeTo acc)
    (live : (s.objects obj).references ≠ 0 → v.references ≠ 0) (refs : ∀ addr, m.references addr = s.machine.references addr)
    (counters : m.sharedAnonPages = s.machine.sharedAnonPages ∧ m.used = s.machine.used ∧ m.limit = s.machine.limit) :
    Consistent (s.put obj m v) ∧ ∀ pos q, q ∈ ((s.put obj m v).objects pos).pages ↔ q ∈ (s.objects pos).pages := by
  have mem : ∀ pos q, q ∈ ((s.put obj m v).objects pos).pages ↔ q ∈ (s.objects pos).pages := by
    intro pos q
    by_cases here : pos = obj
    · subst here
      simp only [System.put, update_self]
      exact perm.mem_iff
    · simp only [System.put, update_of_ne here]
  refine ⟨⟨fun pos => ?_, fun addr => ?_, fun tok tokenIn => ?_, ?_⟩, mem⟩
  · by_cases here : pos = obj
    · subst here
      simp only [System.put, update_self]
      exact ok
    · simp only [System.put, update_of_ne here]
      exact con.object pos
  · exact (con.frame addr).same (fun pos q _ => mem pos q) (refs addr) rfl rfl
  · have pre := con.owner tok tokenIn
    by_cases here : tok.object = obj
    · rw [here] at pre ⊢
      simp only [System.put, update_self]
      exact live pre
    · simp only [System.put, update_of_ne here]
      exact pre
  · refine con.counters.put rfl ?_ (fun acc => ?_) fun acc limited => ?_
    · simp only [System.put, counters.1, perm.length_eq]
    · simp only [System.put, counters.2.1, charge acc]
    · simp only [System.put, counters.2.1, counters.2.2] at limited ⊢
      exact con.counters.limit acc limited

theorem create (fresh : (s.objects obj).references = 0) : Progress s (.create obj fuel) := by
  have empty := ((con.object obj).dead fresh).1
  have new : (kernelMemoryObjectCreate fuel).pages = [] := flatten_eq_nil_iff.mpr fun _ inside => eq_of_mem_replicate inside
  have ok : ObjectOk (kernelMemoryObjectCreate fuel) := by
    refine ⟨.replicate _ _, fun _ => Nat.zero_lt_succ 15, ?_, ?_, ?_, fun dead => ?_, fun _ busy => ?_⟩
    · rw [new]
      exact nodup_nil
    · rw [new]
      rfl
    · rw [new]
      exact fun _ inside => nomatch inside
    · cases dead
    · cases busy
  obtain ⟨next, mem⟩ := con.reshape obj s.machine ok (by rw [new, empty])
    (fun acc => by simp only [chargeTo, new, empty, length_nil, ite_self])
    (fun _ => one_ne_zero) (fun _ => rfl) ⟨rfl, rfl, rfl⟩
  exact ⟨{ status := .ok }, _, rfl, next, Moves.still (fun _ _ _ => id) mem⟩

theorem acquire (live : (s.objects obj).references ≠ 0) : Progress s (.acquire obj) := by
  by_cases full : (s.objects obj).references = uint32Max
  · refine ⟨{ status := .state }, s, ?_, con, Moves.still (fun _ _ _ => id) fun _ _ => Iff.rfl⟩
    simp only [System.step, kernelMemoryObjectAcquire, full, or_true, if_true, put_self]
  have ok := con.object obj
  have grown : ObjectOk { s.objects obj with references := (s.objects obj).references + 1 } :=
    ⟨ok.placed, fun _ => ok.room live, ok.distinct, ok.count, ok.page, fun dead => absurd dead (Nat.succ_ne_zero _), ok.missing⟩
  obtain ⟨next, mem⟩ := con.reshape obj s.machine grown (.refl _) (fun _ => rfl)
    (fun _ => Nat.succ_ne_zero _) (fun _ => rfl) ⟨rfl, rfl, rfl⟩
  refine ⟨{ status := .ok }, _, ?_, next, Moves.still (fun _ _ _ => id) mem⟩
  simp only [System.step, kernelMemoryObjectAcquire, live, full, or_self, if_false]

theorem find_missing (out : (s.objects obj).find index = none) : Progress s (.find obj index) := by
  refine ⟨{ status := .notFound }, s, ?_, con, Moves.still (fun _ _ _ => id) fun _ _ => Iff.rfl⟩
  simp only [System.step, kernelMemoryObjectFindPage, out, Option.map_some, put_self, System.handOut]
  rfl

theorem getLookup_missing (live : (s.objects obj).references ≠ 0)
    (out : (s.objects obj).find index = none) : Progress s (.getLookup obj index prep heap) := by
  have still : ∀ pos, ∀ q ∈ (s.objects pos).pages, ¬ (Step.getLookup obj index prep heap).Removes s pos q := fun _ _ _ => id
  rcases getPageLookup_missing s.machine prep heap out with full | ⟨st, grown, grow, res⟩
  · refine ⟨{ status := .noSpace }, s, ?_, con, Moves.still still fun _ _ => Iff.rfl⟩
    simp only [System.step, full, Option.map_some, put_self, System.handOut]
    rfl
  obtain ⟨ok, perm, fuel, refs, busy⟩ := (con.object obj).grow live grow
  have charge : ∀ acct, grown.chargeTo acct = (s.objects obj).chargeTo acct := fun acct => by
    rw [chargeTo, chargeTo, fuel, perm.length_eq]
  rcases res with ⟨failed, res⟩ | res
  · obtain ⟨next, mem⟩ := con.reshape obj s.machine ok perm charge (fun _ => by rwa [refs]) (fun _ => rfl) ⟨rfl, rfl, rfl⟩
    refine ⟨{ status := st }, _, ?_, next, Moves.still still mem⟩
    simp only [System.step, res, Option.map_some, System.handOut]
    rw [if_pos failed]
  have wait : ObjectOk { grown with busy := some ⟨index, prep⟩ } :=
    ⟨ok.placed, ok.room, ok.distinct, ok.count, ok.page, fun dead => absurd (refs.symm.trans dead) live, fun miss eq page inside => by
        cases eq
        exact (con.object obj).find_none out page (perm.mem_iff.mp inside)⟩
  obtain ⟨next, mem⟩ := con.reshape obj s.machine wait perm charge (fun _ => by simpa only [refs] using live) (fun _ => rfl) ⟨rfl, rfl, rfl⟩
  refine ⟨{ status := .ok }, _, ?_, next, Moves.still still mem⟩
  simp only [System.step, res, Option.map_some]

theorem getLookup (ok : (Step.getLookup obj index prep heap).Allowed s) : Progress s (.getLookup obj index prep heap) := by
  cases got : (s.objects obj).find index with
  | none => exact con.getLookup_missing ok.1 got
  | some page => exact ⟨_, _, con.getLookup_found ok got, con.joined (find_some got).1 prep fun _ _ _ => id⟩

theorem find (ok : (Step.find obj index).Allowed s) : Progress s (.find obj index) := by
  cases got : (s.objects obj).find index with
  | none => exact con.find_missing got
  | some page => exact ⟨_, _, con.find_found ok got, con.joined (find_some got).1 false fun _ _ _ => id⟩

omit [DecidableEq ι] in
/-- Frames are page aligned, so there are fewer pages than the counters can count. -/
theorem shared_lt (bound : addr < 2 ^ 64) (aligned : addr % pageSize = 0)
    (free : ∀ pos, ∀ q ∈ (s.objects pos).pages, q.physicalAddress ≠ addr) : s.machine.sharedAnonPages < uint64Max := by
  have lengths : ∀ pos, (((s.objects pos).pages.map Page.physicalAddress).toFinset).card = (s.objects pos).pages.length := by
    intro pos
    rw [toFinset_card_of_nodup (con.addresses_nodup pos), length_map]
  have disjoint : ((univ : Finset ι) : Set ι).PairwiseDisjoint fun pos => ((s.objects pos).pages.map Page.physicalAddress).toFinset := by
    intro first _ snd _ ne
    rw [Function.onFun, Finset.disjoint_left]
    intro k inFirst inSecond
    obtain ⟨p, pIn, pHere⟩ := mem_map.mp (mem_toFinset.mp inFirst)
    obtain ⟨q, qIn, qHere⟩ := mem_map.mp (mem_toFinset.mp inSecond)
    exact ne ((con.frame k).unique first p pIn snd q qIn pHere qHere).1
  have total : (univ.biUnion fun pos =>
      ((s.objects pos).pages.map Page.physicalAddress).toFinset).card = s.machine.sharedAnonPages := by
    rw [card_biUnion disjoint, con.counters.shared]
    exact sum_congr rfl fun pos _ => lengths pos
  have mem : (univ.biUnion fun pos =>
      ((s.objects pos).pages.map Page.physicalAddress).toFinset) ⊆
      ((Finset.range (2 ^ 64)).erase 1).erase addr := by
    intro k otherIn
    obtain ⟨pos, -, here⟩ := mem_biUnion.mp otherIn
    obtain ⟨q, qIn, rfl⟩ := mem_map.mp (mem_toFinset.mp here)
    obtain ⟨qAligned, qBound⟩ := (con.frame q.physicalAddress).frame pos q qIn rfl
    refine Finset.mem_erase.mpr ⟨free pos q qIn, Finset.mem_erase.mpr ⟨fun one => ?_, Finset.mem_range.mpr qBound⟩⟩
    rcases pageSize_cases with size | size <;> rw [size] at qAligned <;> omega
  have n := card_le_card mem
  have ne : addr ≠ 1 := fun one => by
    rcases pageSize_cases with size | size <;> rw [size] at aligned <;> omega
  rw [total, Finset.card_erase_of_mem (Finset.mem_erase.mpr ⟨ne, Finset.mem_range.mpr bound⟩),
    card_erase_of_mem (mem_range.mpr (by decide)), card_range] at n
  rw [uint64Max]
  omega

omit [DecidableEq ι] in
theorem unused (free : s.machine.references addr = 0) :
    (∀ pos, ∀ q ∈ (s.objects pos).pages, q.physicalAddress ≠ addr) ∧ (tokensAt s.pending addr).length = 0 ∧ s.held.count addr = 0 := by
  have nowhere : ∀ pos, ∀ q ∈ (s.objects pos).pages, q.physicalAddress ≠ addr := by
    intro pos q mem here
    have := (con.frame addr).references pos q mem here
    omega
  have := (con.frame addr).loose nowhere
  exact ⟨nowhere, by omega, by omega⟩

theorem inserted (page : Page) (live : (s.objects obj).references ≠ 0)
    (fresh : ∀ q ∈ (s.objects obj).pages, q.index ≠ page.index) (pageOk : PageOk page)
    (free : s.machine.references page.physicalAddress = 0) (frame : page.physicalAddress % pageSize = 0 ∧ page.physicalAddress < 2 ^ 64)
    (removes : ∀ pos, ∀ q ∈ (s.objects pos).pages, ¬ step.Removes s pos q) (beyond : SameBeyond s page.physicalAddress m pend held)
    (refs : m.references page.physicalAddress = 1 + (tokensAt pend page.physicalAddress).length + held.count page.physicalAddress)
    (preps : page.preparations = (tokensAt pend page.physicalAddress).length)
    (owner : ∀ tok ∈ pend, tok ∈ s.pending ∨ tok = ⟨obj, page.index, page.physicalAddress⟩)
    (unadopted : page.publication = .preparing → held.count page.physicalAddress = 0)
    (cleared : ∀ offset, m.contents page.physicalAddress offset = 0) (shared : m.sharedAnonPages = s.machine.sharedAnonPages + 1)
    (used : ∀ acc, m.used acc = s.machine.used acc + if (s.objects obj).budget = some acc then 1 else 0)
    (lim : ∀ acc, m.limit acc ≠ 0 → m.used acc ≤ m.limit acc) :
    Consistent ⟨m, update s.objects obj { (s.objects obj).insert page with busy := none }, pend, held⟩ ∧
      Moves s step ⟨m, update s.objects obj { (s.objects obj).insert page with busy := none }, pend, held⟩ := by
  obtain ⟨nowhere, noToken, _⟩ := con.unused free
  obtain ⟨ok, len, mem⟩ := (con.object obj).insert live fresh pageOk
  refine con.placed (fun k q qIn here => absurd here (nowhere k q qIn)) ok (fun q => ?_) live removes
    (fun q qIn eq => absurd eq (fresh q qIn)) (fun _ => cleared) beyond refs preps
    (by simp [length_eq_zero_iff.mp noToken]) owner unadopted frame ?_
  · rw [and_iff_left_of_imp (fresh q)]
    exact mem q
  have inserted : ({ (s.objects obj).insert page with busy := none } : Object).pages.length = (s.objects obj).pages.length + 1 := len
  have fuel : ({ (s.objects obj).insert page with busy := none } : Object).budget = (s.objects obj).budget := rfl
  refine con.counters.put rfl ?_ (fun acc => ?_) lim
  · simp only [inserted, shared]
    omega
  have charged : ({ (s.objects obj).insert page with busy := none } : Object).chargeTo acc =
      if (s.objects obj).budget = some acc then (s.objects obj).pages.length + 1 else 0 := by
    rw [chargeTo, inserted, fuel]
  rw [charged, chargeTo, used]
  split <;> omega

theorem created (busy : (s.objects obj).busy = some miss) (free : s.machine.references addr = 0)
    (frame : addr % pageSize = 0 ∧ addr < 2 ^ 64) (removes : ∀ pos, ∀ q ∈ (s.objects pos).pages, ¬ step.Removes s pos q)
    (m : Machine) (refs : m.references = update s.machine.references addr 2)
    (cleared : ∀ offset, m.contents addr offset = 0) (shared : m.sharedAnonPages = s.machine.sharedAnonPages + 1)
    (used : ∀ acc, m.used acc = s.machine.used acc + if (s.objects obj).budget = some acc then 1 else 0)
    (lim : ∀ acc, m.limit acc ≠ 0 → m.used acc ≤ m.limit acc) :
    Consistent ((s.put obj m { (s.objects obj).insert (newPage miss addr) with busy := none }).handOut
        obj miss.index miss.preparing { status := .ok, address := addr, created := true }) ∧
      Moves s step ((s.put obj m { (s.objects obj).insert (newPage miss addr) with busy := none }).handOut
        obj miss.index miss.preparing { status := .ok, address := addr, created := true }) := by
  obtain ⟨_, noToken, noHolder⟩ := con.unused free
  have live : (s.objects obj).references ≠ 0 := fun dead => by
    rw [((con.object obj).dead dead).2] at busy
    cases busy
  have new := (con.object obj).missing miss busy
  have away : ∀ other, other ≠ addr → m.references other = s.machine.references other := fun other ne => by rw [refs, update_of_ne ne]
  obtain ⟨index, prep⟩ := miss
  cases prep with
  | true =>
    have tok : tokensAt (⟨obj, index, addr⟩ :: s.pending) addr = ⟨obj, index, addr⟩ :: tokensAt s.pending addr := tokensAt_cons_self _ _
    refine con.inserted (newPage ⟨index, true⟩ addr) live new (newPage_ok _ _) free frame removes
      ⟨away, fun other ne => tokensAt_cons_other _ ne, fun _ _ => rfl⟩ ?_ ?_
      (fun tok tokenIn => (mem_cons.mp tokenIn).symm) (fun _ => noHolder) cleared shared used lim
    · change m.references addr = 1 + (tokensAt (⟨obj, index, addr⟩ :: s.pending) addr).length + s.held.count addr
      rw [refs, update_self, tok, length_cons]
      omega
    change 1 = (tokensAt (⟨obj, index, addr⟩ :: s.pending) addr).length
    rw [tok, length_cons]
    omega
  | false =>
    refine con.inserted (newPage ⟨index, false⟩ addr) live new (newPage_ok _ _) free frame removes
      ⟨away, fun _ _ => rfl, fun other ne => count_cons_of_ne (Ne.symm ne)⟩ ?_ noToken.symm
      (fun tok tokenIn => .inl tokenIn) (fun prep => nomatch prep) cleared shared used lim
    change m.references addr = 1 + (tokensAt s.pending addr).length + (addr :: s.held).count addr
    rw [refs, update_self, count_cons_self]
    omega

theorem publish_failed (obj : ι) (miss : Missing) (reply : Reply) (failed : reply.status ≠ .ok)
    (removes : ∀ pos, ∀ q ∈ (s.objects pos).pages, ¬ step.Removes s pos q) (refs : ∀ addr, m.references addr = s.machine.references addr)
    (counters : m.sharedAnonPages = s.machine.sharedAnonPages ∧ m.used = s.machine.used ∧ m.limit = s.machine.limit) :
    Consistent ((s.put obj m { s.objects obj with busy := none }).handOut obj miss.index miss.preparing reply) ∧
      Moves s step ((s.put obj m { s.objects obj with busy := none }).handOut obj miss.index miss.preparing reply) := by
  rw [System.handOut, if_pos failed]
  obtain ⟨next, mem⟩ := con.reshape obj m (con.object obj).idle (.refl _) (fun _ => rfl) id refs counters
  exact ⟨next, Moves.still removes mem⟩

theorem getPublish_frame (busy : (s.objects obj).busy = some miss) (free : s.machine.references addr = 0)
    (aligned : addr % pageSize = 0) (bound : addr < 2 ^ 64) : Progress s (.getPublish obj .ok (.ok addr)) := by
  have still : ∀ pos, ∀ q ∈ (s.objects pos).pages, ¬ (Step.getPublish obj .ok (.ok addr)).Removes s pos q := fun _ _ _ => id
  have few := con.shared_lt bound aligned (con.unused free).1
  rcases chargeBudget_cases (s.machine.handed addr) (s.objects obj).budget
    fun acc _ => (con.counters.used_le_shared acc).trans_lt few with refused | ⟨used, charged, usedEq, lo⟩
  · obtain ⟨_, _, first, snd, refs, counters⟩ := release_handed free
    refine ⟨{ status := .noSpace }, _, ?_, con.publish_failed obj miss { status := .noSpace } nofun still refs counters⟩
    rw [System.step, busy]
    simp only [getPagePublish, acquire_handed, refused, first, snd, Option.map_some]
  refine ⟨{ status := .ok, address := addr, created := true }, _, ?_,
    con.created busy free ⟨aligned, bound⟩ still { s.machine.handed addr with
        used := used, sharedAnonPages := s.machine.sharedAnonPages + 1 } rfl
      (fun offset => ?_) rfl usedEq fun acc limited => ?_⟩
  · rw [System.step, busy]
    simp only [getPagePublish, acquire_handed, charged]
    rw [charge, if_neg (by exact few.ne), if_neg (by simp)]
    rfl
  · simp only [handed, clear, update_self, zero_le, if_true]
  have old := con.counters.limit acc limited
  have new := usedEq acc
  simp only
  rw [new]
  split
  next mine =>
    exact lo acc mine limited
  · exact old

theorem getPublish {frame : FrameStatus}
    (allowed : (Step.getPublish obj heap frame).Allowed s) : Progress s (.getPublish obj heap frame) := by
  obtain ⟨miss, busy⟩ := Option.isSome_iff_exists.mp allowed.1
  have failed : ∀ st, st ≠ .ok → getPagePublish s.machine (s.objects obj) miss heap frame =
        some ({ status := st }, s.machine, { s.objects obj with busy := none }) →
      Progress s (.getPublish obj heap frame) := by
    intro st bad res
    refine ⟨{ status := st }, _, ?_, con.publish_failed obj miss { status := st } bad (fun _ _ _ => id) (fun _ => rfl) ⟨rfl, rfl, rfl⟩⟩
    simp only [System.step, busy, res, Option.map_some]
  cases heap with
  | empty => exact failed .noMemory (by simp) rfl
  | other => exact failed .state (by simp) rfl
  | ok =>
    cases frame with
    | empty => exact failed .noMemory (by simp) rfl
    | other => exact failed .state (by simp) rfl
    | ok addr =>
      obtain ⟨free, aligned, bound⟩ := allowed.2 addr rfl
      exact con.getPublish_frame busy free aligned bound

end Consistent
end BoarOS.MemoryObject
