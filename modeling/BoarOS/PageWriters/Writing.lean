import BoarOS.Data.Outcome
import BoarOS.PageWriters.Closing

namespace BoarOS.PageWriters
open Data Function List PageWriters.System Phase

/-! # Steps of writers and of address spaces -/

variable {s s' : System} {task : Nat} {ph : Phase} {owner : Option Nat} {mp : Nat} {borrow : Borrow}

theorem Ownership.begin_cases (held : Ownership s owner) (begun : s.writerBegin borrow = .ok res) :
    (anyClosed s.writes = true ∧ res = none) ∨ (anyClosed s.writes = false ∧ s.borrows.length ≠ uint32Max ∧
        res = some { s with writes := s.writes + 1, borrows := borrow :: s.borrows }) := by
  rw [writerBegin, wordBegin, held.strayBits, held.writerCount] at begun
  by_cases full : s.borrows.length = uint32Max
  · simp [full, bind, Except.bind, throw, throwThe, MonadExceptOf.throw] at begun
  cases closed : anyClosed s.writes with
  | true =>
    simp [full, closed, bind, Except.bind, pure, Except.pure] at begun
    exact .inl ⟨rfl, begun.symm⟩
  | false =>
    simp [full, closed, bind, Except.bind, pure, Except.pure] at begun
    exact .inr ⟨rfl, full, begun.symm⟩

theorem Consistent.admit (inv : Consistent s) (borrow : Borrow) (opened : anyClosed s.writes = false)
    (room : s.borrows.length ≠ uint32Max) : Consistent { s with writes := s.writes + 1, borrows := borrow :: s.borrows } := by
  obtain ⟨owner, held⟩ := inv.owned
  have lt := held.small
  have larger : s.borrows.length + 1 < 2 ^ 32 := by
    simp only [uint32Max] at room
    omega
  have word : s.writes + 1 = pack (s.ownerBit owner closed) (s.ownerBit owner entry) (borrow :: s.borrows).length := by
    rw [held.word, length_cons]
    simp only [pack]
    omega
  refine ⟨⟨owner, held.owns, held.flag, word, larger, held.loaded⟩, { inv.mappings with }, ?_, ?_, ?_⟩
  · intro k mp fault
    have old := inv.faults k mp fault
    exact { old with borrow := .tail _ old.borrow }
  · exact fun k => View.unclosed (held.open opened k)
  intro k waits
  have keeps : ∀ {wait}, Ready { s with writes := s.writes + 1, borrows := borrow :: s.borrows } wait → s.Ready wait := by
    intro wait ready
    have bits : s.ownerBit owner closed = false ∧ s.ownerBit owner entry = false := by
      rw [anyClosed, held.writesClosed, held.entryClosed, Bool.or_eq_false_iff] at opened
      exact opened
    cases wait with
    | writable => exact .inr opened
    | readable =>
      refine ⟨ready.1, ?_⟩
      rw [held.entryClosed]
      exact bits.2
    | selecting =>
      refine ready.imp id fun free => ⟨free.1, ?_⟩
      rw [held.writesClosed]
      exact bits.1
    | resizing => exact ⟨ready.1, ready.2.1, opened⟩
    | draining =>
      have drained : writerCount (s.writes + 1) = 0 := ready
      rw [word, length_cons, pack_writerCount larger] at drained
      cases drained
    | _ => trivial
  exact (inv.woken k waits).imp id fun owed ready => owed (keeps ready)

/-- A writer leaves; the last one to leave a closed page wakes its queue. -/
theorem Consistent.release (inv : Consistent s) (runs : s.parked task = false) (own : borrow = .buffered task ∨ borrow = .fault task)
    (quiet : (s.phase task).owns = false) (done : s.writerEnd borrow = .ok ended) : Consistent (ended.become task .idle) := by
  obtain ⟨owner, held⟩ := inv.owned
  rw [writerEnd] at done
  split at done
  · cases done
  rename_i mem
  rw [not_not] at mem
  have pos : 0 < s.borrows.length := length_pos_of_mem mem
  have shorter : (s.borrows.erase borrow).length = s.borrows.length - 1 := length_erase_of_mem mem
  have n : wordEnd s.writes = .ok (pack (s.ownerBit owner closed) (s.ownerBit owner entry)
      (s.borrows.length - 1), (s.ownerBit owner closed || s.ownerBit owner entry) && s.borrows.length == 1) := by
    rw [held.word]
    exact wordEnd_pack held.small pos
  set word := pack (s.ownerBit owner closed) (s.ownerBit owner entry) (s.borrows.length - 1) with packed
  set wakes := ((s.ownerBit owner closed || s.ownerBit owner entry) && s.borrows.length == 1) with notified
  have shape : ended = if wakes then { s with writes := word, borrows := s.borrows.erase borrow }.wake
      else { s with writes := word, borrows := s.borrows.erase borrow } := by
    simp only [n, bind, Except.bind, pure, Except.pure] at done
    exact (Except.ok.inj done).symm
  have fields : ended.writes = word ∧ ended.borrows = s.borrows.erase borrow ∧ ended.retired = s.retired ∧
      ended.loading = s.loading ∧ ended.loadNotice = s.loadNotice ∧ ended.writeback = s.writeback ∧
      ended.phase = s.phase := by
    rw [shape]
    cases wakes <;> exact ⟨rfl, rfl, rfl, rfl, rfl, rfl, rfl⟩
  obtain ⟨words, borrows, retired, loading, notice, flag, phases⟩ := fields
  -- the borrow apart, nothing of the mappings is touched
  have same : Untouched s { ended.become task .idle with borrows := s.borrows } := by
    rw [shape]
    cases wakes <;> exact ⟨rfl, rfl, rfl, rfl, rfl, rfl, rfl⟩
  have moved : (ended.become task .idle).phase = update s.phase task .idle := by
    rw [← phases]
    rfl
  have unready : wakes = false → ∀ k, (ended.become task .idle).Ready (s.phase k) → s.Ready (s.phase k) := by
    intro silent k ready
    have lt := held.small
    have bits : anyClosed word = anyClosed s.writes ∧ PageWriters.entryClosed word = PageWriters.entryClosed s.writes ∧
        PageWriters.writesClosed word = PageWriters.writesClosed s.writes := by
      rw [packed, held.word, pack_anyClosed (by omega), pack_anyClosed lt, pack_entryClosed (by omega),
        pack_entryClosed lt, pack_writesClosed (by omega), pack_writesClosed lt]
      exact ⟨rfl, rfl, rfl⟩
    have words : (ended.become task .idle).writes = word := words
    cases waiting : s.phase k with
    | writable =>
      rw [waiting] at ready
      refine ready.imp (fun gone => retired ▸ gone) fun opened => ?_
      rw [← bits.1, ← words]
      exact opened
    | readable =>
      rw [waiting] at ready
      refine ⟨loading ▸ ready.1, ?_⟩
      rw [← bits.2.1, ← words]
      exact ready.2
    | selecting =>
      rw [waiting] at ready
      refine ready.imp (fun gone => retired ▸ gone) fun free => ⟨flag ▸ free.1, ?_⟩
      rw [← bits.2.2, ← words]
      exact free.2
    | resizing =>
      rw [waiting] at ready
      refine ⟨flag ▸ ready.1, loading ▸ ready.2.1, ?_⟩
      rw [← bits.1, ← words]
      exact ready.2.2
    | draining closer =>
      rw [waiting] at ready
      have drained : writerCount (ended.become task .idle).writes = 0 := ready
      rw [words, packed, pack_writerCount (by omega)] at drained
      have mine := held.mine (by rw [waiting]; exact closed_owns rfl)
      have shut : s.ownerBit owner closed = true := by
        rw [mine.1]
        simp [ownerBit, waiting, closed]
      have last : s.borrows.length = 1 := by omega
      rw [notified, shut, last] at silent
      cases silent
    | _ => trivial
  refine ⟨⟨owner, ?_⟩, { inv.mappings.untouched same with }, ?_, ?_, ?_⟩
  · have mid : Ownership { s with writes := word, borrows := s.borrows.erase borrow } owner :=
      ⟨held.owns, held.flag, by rw [packed]; simp only [shorter]; rfl, by simp only [shorter]; have := held.small; omega, held.loaded⟩
    exact mid.pass moved quiet rfl flag words borrows fun still => loading.trans still
  · intro k mp fault
    rw [moved] at fault
    obtain ⟨_, ⟨⟩⟩ | ⟨eq, fault⟩ := of_update_eq fault
    obtain ⟨listed, held, alive, borrowed⟩ := (inv.faults k mp fault).untouched same
    have ne : Borrow.fault k ≠ borrow := by
      rintro rfl
      rcases own with wrong | mine
      · cases wrong
      cases mine
      exact eq rfl
    refine ⟨listed, held, alive, ?_⟩
    change Borrow.fault k ∈ ended.borrows
    rw [borrows]
    exact (mem_erase_of_ne ne).mpr borrowed
  · intro k
    rw [moved]
    by_cases eq : k = task
    · subst eq
      rw [update_self]
      exact View.unclosed rfl
    rw [update_of_ne eq]
    refine (inv.views k).mono same.aliases same.link (le_of_eq same.nextAlias.symm) (same.exposed moved (by simp)) ?_
      fun _ _ => same.content
    intro empty
    rw [empty] at pos
    cases pos
  · cases wake : wakes with
    | true =>
      refine .of_wake fun k => ?_
      simp only [shape, wake, if_true]
      rfl
    | false =>
      have parked : (ended.become task .idle).parked = s.parked := by
        simp only [shape, wake]
        rfl
      refine inv.woken.mono parked runs moved (fun k _ ready => .inl ?_) fun owed =>
        owed.become (fun load => notice.trans load) moved ?_
      · exact unready wake k ready
      intro ver captured
      rw [captured] at quiet
      cases quiet

theorem Consistent.gate (inv : Consistent s) (space : Nat) (holder : Option Nat)
    (free : ∀ k mp, s.phase k = .faulting mp → (s.aliasOf mp).space ≠ space) :
    Consistent { s with gate := update s.gate space holder } := by
  obtain ⟨⟨owner, held⟩, mappings, faults, views, woken⟩ := inv
  refine ⟨⟨owner, { held with }⟩, { mappings with }, fun k mp fault => ?_,
    fun k => (views k).mono rfl rfl le_rfl (fun _ => id) id fun _ _ => rfl, woken⟩
  exact { faults k mp fault with gate := (update_of_ne (free k mp fault) ..).trans (faults k mp fault).gate }

theorem Consistent.unfaulted (inv : Consistent s) (idle : ∀ mp, s.phase task ≠ .faulting mp) (held : s.gate space = none ∨ s.gate space = some task)
    (k mp : Nat) (fault : s.phase k = .faulting mp) : (s.aliasOf mp).space ≠ space := by
  rintro rfl
  have gate := (inv.faults k mp fault).gate
  rcases held with free | mine
  · rw [free] at gate
    cases gate
  rw [mine] at gate
  cases gate
  exact idle mp fault

theorem Consistent.faultBegin (inv : Consistent s) (runs : s.parked task = false) (idle : s.phase task = .idle)
    (begun : s.faultBegin task mp pins = .ok s') : Consistent s' := by
  obtain ⟨_, held⟩ := inv.owned
  rw [System.faultBegin] at begun
  split at begun
  · cases begun
  rename_i ok
  simp only [Bool.or_eq_true, decide_eq_true_eq, bne_iff_ne, Bool.not_eq_true', not_or, not_not, Bool.not_eq_false] at ok
  obtain ⟨⟨listed, gate⟩, live⟩ := ok
  obtain ⟨_, admission, rest⟩ := Data.bind_ok begun
  rcases held.begin_cases admission with ⟨_, rfl⟩ | ⟨opened, room, rfl⟩
  · cases rest
    have freed := inv.gate (s.aliasOf mp).space none (inv.unfaulted (by rw [idle]; exact nofun) (.inr gate))
    have quiet : (s.phase task).owns = false := by rw [idle]; rfl
    refine freed.pass runs quiet ?_ ?_ <;> cases pins <;> first | rfl | exact nofun
  cases rest
  have admitted := inv.admit (.fault task) opened room
  obtain ⟨holder, ownership⟩ := admitted.owned
  refine ⟨⟨holder, ownership.pass rfl (by change (s.phase task).owns = false; rw [idle]; rfl) rfl rfl rfl rfl id⟩,
    admitted.mappings.untouched ⟨rfl, rfl, rfl, rfl, rfl, rfl, rfl⟩, ?_, ?_, ?_⟩
  · intro k faulted fault
    by_cases eq : k = task
    · subst eq
      have now : update s.phase k (.faulting mp) k = .faulting faulted := fault
      rw [update_self] at now
      cases now
      exact ⟨listed, gate, live, .head _⟩
    · have now : update s.phase task (.faulting mp) k = .faulting faulted := fault
      rw [update_of_ne eq] at now
      exact (admitted.faults k faulted now).untouched ⟨rfl, rfl, rfl, rfl, rfl, rfl, rfl⟩
  · intro k
    change View _ (update s.phase task (.faulting mp) k)
    by_cases eq : k = task
    · subst eq
      rw [update_self]
      exact View.unclosed rfl
    · rw [update_of_ne eq]
      exact View.unclosed (held.open opened k)
  · refine admitted.woken.mono rfl runs rfl (fun _ _ ready => .inl ?_) fun owed => owed.become id rfl ?_
    · rwa [Ready.congr rfl rfl rfl rfl] at ready
    · change ∀ ver, s.phase task ≠ .captured ver
      rw [idle]
      exact nofun

/-- While a writeback copies the page nobody can write it. -/
theorem Consistent.put (inv : Consistent s) (offset : Nat) (v : UInt8)
    (uncopied : ∀ k ver, s.phase k ≠ .capturing ver) : Consistent (s.put offset v) := by
  obtain ⟨⟨owner, held⟩, mappings, faults, views, woken⟩ := inv
  exact ⟨⟨owner, { held with }⟩, { mappings with }, fun k mp fault => { faults k mp fault with },
    fun k => (views k).mono rfl rfl le_rfl (fun _ => id) id fun ver capturing => absurd capturing (uncopied k ver), woken⟩

/-- What a store to the page shows about the state it happens in. -/
inductive System.Writes (s : System) (task : Nat) : Prop where
  | borrowed : .buffered task ∈ s.borrows → s.Writes task
  | stored (mapping : Nat) : s.Storable mapping → s.Writes task
  | resized : s.phase task = .resized → s.Writes task
  | loading : s.loading = true → s.Writes task

theorem Consistent.uncopied (inv : Consistent s) (task : Nat) (writes : s.Writes task) (k : Nat)
    (ver : List (Nat × UInt8)) : s.phase k ≠ .capturing ver := by
  intro capturing
  have view := inv.views k
  rw [capturing] at view
  obtain ⟨_, held⟩ := inv.owned
  have mine := held.mine (by rw [capturing]; rfl : (s.phase k).owns = true)
  cases writes with
  | borrowed mem =>
    have empty : s.borrows = [] := view.drained
    rw [empty] at mem
    cases mem
  | stored mp fits => exact view.covers mp (.inl fits)
  | resized now =>
    have also := held.mine (by rw [now]; rfl : (s.phase task).owns = true)
    have eq : k = task := Option.some.inj (mine.1.symm.trans also.1)
    rw [eq, now] at capturing
    cases capturing
  | loading unfinished =>
    rw [held.loaded (by simp [mine.1])] at unfinished
    cases unfinished

section
variable (inv : Consistent s)
include inv

theorem Consistent.setLeaf (admitted : leaf = .writable → ∃ other, s.phase other = .faulting mp) : Consistent (s.setLeaf mp leaf) := by
  have spaces : ∀ other, ((s.setLeaf mp leaf).aliasOf other).space = (s.aliasOf other).space := by
    intro other
    by_cases eq : other = mp
    · subst eq
      simp [setLeaf]
    · simp [System.setLeaf, update_of_ne eq]
  have links : (s.setLeaf mp leaf).link = s.link := by
    funext other
    by_cases eq : other = mp
    · subst eq
      simp [link, setLeaf]
    · simp [System.link, System.setLeaf, update_of_ne eq]
  have fits : ∀ other, (s.setLeaf mp leaf).Storable other → s.Storable other ∨ ∃ task, s.phase task = .faulting other := by
    rintro other ⟨live, writable⟩
    by_cases eq : other = mp
    · subst eq
      refine .inr (admitted ?_)
      simpa [setLeaf] using writable
    refine .inl ⟨?_, ?_⟩
    · rw [spaces] at live
      exact live
    · simpa [System.setLeaf, update_of_ne eq] using writable
  obtain ⟨⟨owner, owns, flag, word, lt, loaded⟩, ⟨nodup, old, link, listed⟩, faults, views, woken⟩ := inv
  refine ⟨⟨owner, owns, flag, word, lt, loaded⟩, ⟨nodup, old, ?_, ?_⟩, ?_, ?_, woken⟩
  · rw [links]
    exact link
  · intro other shown
    rcases fits other shown with pre | ⟨task, fault⟩
    · exact listed other pre
    · exact (faults task other fault).listed
  · intro other faulted fault
    obtain ⟨listed, gate, live, borrow⟩ := faults other faulted fault
    refine ⟨listed, ?_, ?_, borrow⟩
    · rw [spaces]
      exact gate
    · rw [spaces]
      exact live
  · refine fun other => (views other).mono rfl links le_rfl ?_ id fun _ _ => rfl
    rintro shown (now | fault)
    · exact fits shown now
    · exact .inr fault

theorem Consistent.rearm : Consistent (s.rearm mp) := by
  rw [System.rearm]
  split
  · exact inv.setLeaf fun wrong => by cases wrong
  · exact inv

theorem Consistent.attach (space : Nat) : Consistent (s.attach space) := by
  obtain ⟨⟨owner, owns, flag, word, lt, loaded⟩, ⟨nodup, known, linked, listed⟩, faults, views, woken⟩ := inv
  have old : ∀ other, other ≠ s.nextAlias → (s.attach space).aliasOf other = s.aliasOf other := by
    intro other ne
    exact update_of_ne ne _ _
  have new : (s.attach space).aliasOf s.nextAlias = { space := space, leaf := .readOnly } := update_self _ _ _
  have fits : ∀ other, (s.attach space).Storable other → s.Storable other := by
    rintro other ⟨live, writable⟩
    by_cases eq : other = s.nextAlias
    · subst eq
      rw [new] at writable
      cases writable
    · rw [old other eq] at live writable
      exact ⟨live, writable⟩
  have exposed : ∀ other, (s.attach space).Exposed other → s.Exposed other := by
    rintro other (now | fault)
    · exact .inl (fits other now)
    · exact .inr fault
  have lo : ∀ {other}, other ∈ s.aliases → other ≠ s.nextAlias := by
    rintro other member rfl
    exact lt_irrefl _ (known _ member)
  refine ⟨⟨owner, owns, flag, word, lt, loaded⟩, ⟨?_, ?_, ?_, ?_⟩, ?_, ?_, woken⟩
  · exact nodup_cons.mpr ⟨fun member => lo member rfl, nodup⟩
  · intro other member
    change other < s.nextAlias + 1
    rcases mem_cons.mp member with rfl | mem
    · omega
    have := known other mem
    omega
  · intro other next link
    change next < s.nextAlias + 1
    by_cases eq : other = s.nextAlias
    · subst eq
      rw [System.link, new] at link
      cases link
    rw [System.link, old other eq] at link
    have := linked other next link
    omega
  · exact fun other now => .tail _ (listed other (fits other now))
  · intro other faulted fault
    obtain ⟨member, gate, live, borrow⟩ := faults other faulted fault
    refine ⟨.tail _ member, ?_, ?_, borrow⟩
    · rw [old faulted (lo member)]
      exact gate
    · rw [old faulted (lo member)]
      exact live
  · refine fun other => (views other).map ?_ exposed id fun _ _ => rfl
    rintro _ ⟨le, rest, leads, all⟩
    refine ⟨Nat.lt_succ_of_lt le, rest, ?_, fun shown now => all shown (exposed shown now)⟩
    refine leads.attach (fun start first => ?_) linked le_rfl fun earlier ne => ?_
    · cases first
      exact le
    · rw [link, old earlier ne]
      rfl

theorem Consistent.detach (member : mp ∈ s.aliases) (unused : ¬ s.Exposed mp) : Consistent (s.detach mp) := by
  obtain ⟨⟨owner, owns, flag, word, lt, loaded⟩, ⟨nodup, old, linked, listed⟩, faults, views, woken⟩ := inv
  have spaces : ∀ other, ((s.detach mp).aliasOf other).space = (s.aliasOf other).space ∧
      ((s.detach mp).aliasOf other).leaf = (s.aliasOf other).leaf := by
    intro other
    by_cases eq : other = mp
    · subst eq
      simp [detach]
    · simp [System.detach, update_of_ne eq]
  have retired : (s.detach mp).link mp = s.aliases[s.aliases.idxOf mp + 1]? := by
    rw [link]
    change (update s.aliasOf mp _ mp).retiredNext = _
    rw [update_self]
    exact if_pos member
  have links : ∀ other, other ≠ mp → (s.detach mp).link other = s.link other := by
    intro other ne
    rw [link]
    change (update s.aliasOf mp _ other).retiredNext = _
    rw [update_of_ne ne]
    rfl
  have fits : ∀ other, (s.detach mp).Storable other → s.Storable other := by
    rintro other ⟨live, writable⟩
    rw [(spaces other).1] at live
    rw [(spaces other).2] at writable
    exact ⟨live, writable⟩
  have exposed : ∀ other, (s.detach mp).Exposed other → s.Exposed other ∧ other ≠ mp := by
    intro other shown
    have pre : s.Exposed other := shown.imp (fits other) id
    refine ⟨pre, ?_⟩
    rintro rfl
    exact unused pre
  refine ⟨⟨owner, owns, flag, word, lt, loaded⟩, ⟨nodup.erase mp, ?_, ?_, ?_⟩, ?_, ?_, woken⟩
  · exact fun other mem => old other (mem_of_mem_erase mem)
  · intro other next link
    by_cases eq : other = mp
    · subst eq
      rw [retired] at link
      exact old next (mem_of_getElem? link)
    · rw [links other eq] at link
      exact linked other next link
  · intro other now
    have ne := (exposed other (.inl now)).2
    exact (mem_erase_of_ne ne).mpr (listed other (fits other now))
  · intro other faulted fault
    obtain ⟨mem, gate, live, borrow⟩ := faults other faulted fault
    have ne := (exposed faulted (.inr ⟨other, fault⟩)).2
    refine ⟨(mem_erase_of_ne ne).mpr mem, ?_, ?_, borrow⟩
    · rw [(spaces faulted).1]
      exact gate
    · rw [(spaces faulted).1]
      exact live
  · refine fun other => (views other).map ?_ (fun shown now => (exposed shown now).1) id fun _ _ => rfl
    rintro _ ⟨le, rest, leads, all⟩
    refine ⟨le, rest.erase mp, leads.detach nodup member retired links, ?_⟩
    intro shown now
    exact (mem_erase_of_ne (exposed shown now).2).mpr (all shown (exposed shown now).1)

theorem Consistent.teardown (free : ∀ other mp, s.phase other = .faulting mp → (s.aliasOf mp).space ≠ space) :
    Consistent { s with live := update s.live space false } := by
  obtain ⟨⟨owner, owns, flag, word, lt, loaded⟩, ⟨nodup, old, link, listed⟩, faults, views, woken⟩ := inv
  have fits : ∀ other, Storable { s with live := update s.live space false } other → s.Storable other := by
    rintro other ⟨live, writable⟩
    refine ⟨?_, writable⟩
    have alive : update s.live space false (s.aliasOf other).space = true := live
    by_cases eq : (s.aliasOf other).space = space
    · rw [eq, update_self] at alive
      cases alive
    · rwa [update_of_ne eq] at alive
  refine ⟨⟨owner, owns, flag, word, lt, loaded⟩, ⟨nodup, old, link, ?_⟩, ?_, ?_, woken⟩
  · exact fun other now => listed other (fits other now)
  · intro other faulted fault
    obtain ⟨mem, gate, live, borrow⟩ := faults other faulted fault
    refine ⟨mem, gate, ?_, borrow⟩
    change update s.live space false (s.aliasOf faulted).space = true
    rw [update_of_ne (free other faulted fault)]
    exact live
  · exact fun other => (views other).mono rfl rfl le_rfl (fun shown => Or.imp (fits shown) id) id fun _ _ => rfl

end

theorem Consistent.flags (inv : Consistent s) (phases : s'.phase = s.phase) (same : Untouched s s') (writes : s'.writes = s.writes)
    (flag : s'.writeback = s.writeback) (loading : s.loading = false → s'.loading = false) (woken : s'.Woken) : Consistent s' := by
  obtain ⟨owner, owns, flagged, word, lt, loaded⟩ := inv.owned
  refine ⟨⟨owner, ?_, ?_, ?_, ?_, fun taken => loading (loaded taken)⟩, inv.mappings.untouched same, ?_, ?_, woken⟩
  · rw [phases]
    exact owns
  · simp only [ownerBit, phases, flag]
    exact flagged
  · simp only [ownerBit, phases, writes, same.borrows]
    exact word
  · rw [same.borrows]
    exact lt
  · intro k mp fault
    rw [phases] at fault
    exact (inv.faults k mp fault).untouched same
  · intro k
    rw [phases]
    refine (inv.views k).mono same.aliases same.link (le_of_eq same.nextAlias.symm) ?_
      (fun empty => same.borrows.trans empty) fun _ _ => same.content
    rintro mp (fits | ⟨task, fault⟩)
    · exact .inl ((same.storable mp).mp fits)
    · exact .inr ⟨task, phases ▸ fault⟩

end BoarOS.PageWriters
