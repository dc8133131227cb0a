import BoarOS.MemoryObject.Runs

namespace BoarOS.MemoryObject
open Page

/-! # What clients of memory objects can rely on -/

section
variable {ι : Type} [PageGeometry] [DecidableEq ι] [Fintype ι] {s after s' : System ι} {object obj : ι} {page : Page}
  {reply : Reply}

/-- What a reader sees: a hole reads as zero. -/
def System.readByte (s : System ι) (object : ι) (position : Nat) : UInt8 :=
  match (s.objects object).find (position / pageSize) with
  | none => 0
  | some page => s.machine.contents page.physicalAddress (position % pageSize)

/-- The steps by which a client other than the creator obtains a page. -/
def Step.Obtains (object : ι) (page : Page) : Step ι → Prop
  | .find place index => place = object ∧ index = page.index
  | .getLookup place index preparing _ => place = object ∧ index = page.index ∧ preparing = false
  | .finish token accepted => token = ⟨object, page.index, page.physicalAddress⟩ ∧ accepted = true
  | _ => False

theorem Consistent.readByte_truncate (con : Consistent s) (ok : (Step.truncate obj size).Allowed s)
    (ran : s.step (.truncate obj size) = some (reply, s')) (past : size ≤ position) : s'.readByte obj position = 0 := by
  obtain ⟨_, done, _, -, cleared, pages⟩ := con.truncate_cleared ok.1
  rw [ran] at done
  cases done
  rw [System.readByte]
  cases got : (s'.objects obj).find (position / pageSize) with
  | none => rfl
  | some page =>
    obtain ⟨mem, i⟩ := find_some got
    rw [pages] at mem
    obtain ⟨old, stays⟩ := List.mem_filter.mp mem
    have ord : size / pageSize ≤ position / pageSize := Nat.div_le_div_right past
    have kept : page.beyond size = false := by simpa using stays
    have last : page.index = size / pageSize := by
      simp only [beyond, Bool.or_eq_false_iff, decide_eq_false_iff_not] at kept
      omega
    refine cleared.tail page old kept last _ ?_
    have first := Nat.div_add_mod size pageSize
    have snd := Nat.div_add_mod position pageSize
    rw [← i, last] at snd
    omega

omit [PageGeometry] [Fintype ι] in
theorem joined_objects (s : System ι) (obj : ι) (page : Page) (prep : Bool) :
    (s.joined obj page prep).objects = Function.update s.objects obj
      ((s.objects obj).edit page.index fun page => some (page.join prep)) := by
  cases prep <;> rfl

theorem Consistent.obtained (con : Consistent s) {step : Step ι} (ok : step.Allowed s)
    (ran : s.step step = some (reply, s')) (inside : page ∈ (s.objects obj).pages) (obtains : step.Obtains obj page) :
    ∃ later ∈ (s'.objects obj).pages, page.Continues later ∧ later.obtained = true := by
  have pageOk := (con.object obj).page page inside
  have join : s' = s.joined obj page false → ∃ later ∈ (s'.objects obj).pages, page.Continues later ∧ later.obtained = true := by
    rintro rfl
    obtain ⟨-, -, mem⟩ := (con.object obj).edit inside (fun page => some (page.join false)) rfl
      (Continues.join page false).index (pageOk.join false)
    refine ⟨page.join false, ?_, Continues.join page false, rfl⟩
    rw [joined_objects, Function.update_self]
    exact (mem _).mpr (.inl rfl)
  cases step with
  | find pos i =>
    obtain ⟨rfl, rfl⟩ := obtains
    rw [con.find_found ok ((con.object pos).find_eq inside)] at ran
    cases ran
    exact join rfl
  | getLookup pos i preparing heap =>
    obtain ⟨rfl, rfl, rfl⟩ := obtains
    rw [con.getLookup_found ok ((con.object pos).find_eq inside)] at ran
    cases ran
    exact join rfl
  | finish tok accepted =>
    obtain ⟨rfl, rfl⟩ := obtains
    obtain ⟨_, underway⟩ := con.underway inside ok.1
    rw [con.finish_accepted_eq inside ok.1] at ran
    cases ran
    obtain ⟨-, -, mem⟩ := (con.object obj).edit inside (fun page => some (page.finish true)) rfl
      (Continues.finish page true).index (pageOk.accept underway)
    refine ⟨page.finish true, ?_, Continues.finish page true, rfl⟩
    simp only [Function.update_self]
    exact (mem _).mpr (.inl rfl)
  | _ => exact absurd obtains id

omit [DecidableEq ι] in
theorem Consistent.unaccepted (con : Consistent s) (mem : page ∈ (s.objects obj).pages) (made : page.byGet = false)
    (unobtained : page.obtained = false) : page.preparations = (tokensAt s.pending page.physicalAddress).length ∧ page.preparations ≠ 0 ∧
      ∀ tok ∈ tokensAt s.pending page.physicalAddress, tok = ⟨obj, page.index, page.physicalAddress⟩ ∧
        ((Step.finish tok false).Removes s obj page ↔ page.preparations = 1) := by
  have pageOk := (con.object obj).page page mem
  refine ⟨(con.frame page.physicalAddress).preparations obj page mem rfl,
    pageOk.underway (pageOk.preparing.mpr ⟨made, unobtained⟩), fun tok tokenIn => ?_⟩
  obtain ⟨objectEq, indexEq⟩ := (con.frame page.physicalAddress).token obj page mem rfl tok tokenIn
  obtain ⟨-, addrEq⟩ := mem_tokensAt.mp tokenIn
  have eq : tok = ⟨obj, page.index, page.physicalAddress⟩ := by
    rw [← objectEq, ← indexEq, ← addrEq]
  exact ⟨eq, fun gone => gone.2.2.2.2, fun last => ⟨rfl, eq, made, unobtained, last⟩⟩

omit [DecidableEq ι] [Fintype ι] in
theorem Moves.kept_iff (moves : Moves s step s') (mem : page ∈ (s.objects obj).pages) :
    (∃ later ∈ (s'.objects obj).pages, page.Continues later) ↔ ¬ step.Removes s obj page :=
  ⟨fun ⟨later, laterIn, continues⟩ gone => moves.gone obj page mem gone later laterIn continues.index, moves.kept obj page mem⟩

/-- Over every interleaving. A page that was prepared stays once some client obtained it, or if a direct `get`
created it, until truncation or destruction; one that only direct calls touched may be withdrawn when nobody holds it.
-/
theorem memoryObject_pages {limit : Nat → Nat} {contents : Nat → Nat → UInt8} (reachable : Reachable limit contents s) :
    (∀ object, ((s.objects object).pages.map Page.index).Nodup ∧ (s.objects object).pageCount = (s.objects object).pages.length) ∧
    s.machine.sharedAnonPages = ∑ object, (s.objects object).pages.length ∧
    (∀ account, s.machine.used account = ∑ object, (s.objects object).chargeTo account) ∧
    (∀ account, s.machine.limit account ≠ 0 → s.machine.used account ≤ s.machine.limit account) ∧
    (∀ object, ∀ page ∈ (s.objects object).pages, page.byGet = false → page.obtained = false →
      page.preparations = (tokensAt s.pending page.physicalAddress).length ∧ page.preparations ≠ 0 ∧
      ∀ token ∈ tokensAt s.pending page.physicalAddress, token = ⟨object, page.index, page.physicalAddress⟩ ∧
        ((Step.finish token false).Removes s object page ↔ page.preparations = 1)) ∧
    ∀ step, step.Allowed s → ∃ reply after, s.step step = some (reply, after) ∧ (∀ object, ∀ page ∈ (s.objects object).pages,
        ((∃ later ∈ (after.objects object).pages, page.Continues later) ↔ ¬ step.Removes s object page) ∧
        (page.prepared = true → (page.byGet = true ∨ page.obtained = true) → step.Removes s object page →
          (∃ size, step = .truncate object size) ∨ step = .release object) ∧
        (step.Obtains object page → ∃ later ∈ (after.objects object).pages, page.Continues later ∧ later.obtained = true)) ∧
      (∀ object, ∀ page ∈ (after.objects object).pages, (∀ older ∈ (s.objects object).pages, older.index ≠ page.index) →
        ∀ offset, after.machine.contents page.physicalAddress offset = 0) ∧
      ∀ object size, step = .truncate object size → ∀ position, size ≤ position → after.readByte object position = 0 := by
  have con := reachable.consistent
  refine ⟨fun object => ⟨(con.object object).distinct, (con.object object).count⟩, con.counters.shared,
    con.counters.used, con.counters.limit, fun object page mem => con.unaccepted mem, fun step ok => ?_⟩
  obtain ⟨reply, after, ran, _, moves⟩ := con.step ok
  refine ⟨reply, after, ran, fun object page mem => ⟨moves.kept_iff mem, fun prep used gone => ?_,
    con.obtained ok ran mem⟩, moves.fresh, ?_⟩
  · cases step with
    | truncate pos size =>
      rw [gone.1]
      exact .inl ⟨size, rfl⟩
    | release pos =>
      rw [gone.1]
      exact .inr rfl
    | finish token accepted =>
      obtain ⟨-, -, made, unobtained, -⟩ := gone
      rcases used with byGet | obtained
      · exact absurd (byGet.symm.trans made) nofun
      · exact absurd (obtained.symm.trans unobtained) nofun
    | discard pos i addr =>
      obtain ⟨-, -, -, -, unprepared, -⟩ := gone
      exact absurd (prep.symm.trans unprepared) nofun
    | _ => exact absurd gone id
  · rintro _ _ rfl _ past
    exact con.readByte_truncate ok ran past

def System.next (s : System ι) (step : Step ι) : System ι :=
  match s.step step with
  | none => s
  | some (_, after) => after

theorem Reachable.next (run : Reachable lim data s) (step : Step ι) (ok : step.Allowed s) : Reachable lim data (s.next step) := by
  obtain ⟨_, s', ran, -⟩ := run.consistent.step ok
  have eq : s.next step = s' := by rw [System.next, ran]
  rw [eq]
  exact .step run ok ran

end

section

attribute [local instance] PageGeometry.riscv

/-- A page is prepared, accepted and cut in the middle. -/
theorem memoryObject_pages_accepted : ∃ s : System Unit, Reachable (fun _ => 1) (fun _ _ => 7) s ∧ (s.objects ()).pageCount = 1 ∧
      s.machine.used 3 = 1 ∧ s.machine.contents 0x5000 17 = 0 ∧
      ((s.objects ()).pages.map Page.index).Nodup ∧
      s.machine.sharedAnonPages = ∑ object, (s.objects object).pages.length := by
  have start : Reachable (fun _ => 1) (fun _ _ => 7) (System.initial (fun _ => 1) (fun _ _ => 7) : System Unit) :=
    .initial
  have created := start.next (.create () (some 3)) rfl
  have missed := created.next (.getLookup () 9 true .ok) ⟨by decide +kernel, by decide +kernel, by decide +kernel⟩
  have made := missed.next (.getPublish () .ok (.ok 0x5000))
    ⟨by decide +kernel, by rintro _ ⟨⟩; exact ⟨by decide +kernel, by decide +kernel, by decide +kernel⟩⟩
  have ok := made.next (.finish ⟨(), 9, 0x5000⟩ true) ⟨by decide +kernel, by decide +kernel, fun _ => by decide +kernel⟩
  have cut := ok.next (.truncate () (9 * 4096 + 16)) ⟨by decide +kernel, by decide +kernel⟩
  obtain ⟨pages, shared, -⟩ := memoryObject_pages cut
  exact ⟨_, cut, by decide +kernel, by decide +kernel, by decide +kernel, (pages ()).1, shared⟩

/-- One client creates a page, another finds it, both drop it: the creator can still withdraw it. -/
theorem discard_found_page : ∃ (s : System Unit) (page : Page), Reachable (fun _ => 0) (fun _ _ => 0) s ∧
      (s.objects ()).pages = [page] ∧ page.obtained = true ∧ s.held = [] ∧
      (Step.discard () page.index page.physicalAddress).Allowed s ∧
      (s.step (.discard () page.index page.physicalAddress)).map (fun result => (result.2.objects ()).pages) = some [] := by
  have start : Reachable (fun _ => 0) (fun _ _ => 0) (System.initial (fun _ => 0) (fun _ _ => 0) : System Unit) :=
    .initial
  have created := start.next (.create () none) rfl
  have missed := created.next (.getLookup () 9 false .ok) ⟨by decide +kernel, by decide +kernel, by decide +kernel⟩
  have made := missed.next (.getPublish () .ok (.ok 0x5000))
    ⟨by decide +kernel, by rintro _ ⟨⟩; exact ⟨by decide +kernel, by decide +kernel, by decide +kernel⟩⟩
  have got := made.next (.find () 9) ⟨by decide +kernel, by decide +kernel, by decide +kernel⟩
  have dropped := (got.next (.drop 0x5000) (show 0x5000 ∈ _ by decide +kernel)).next (.drop 0x5000) (show 0x5000 ∈ _ by decide +kernel)
  exact ⟨_, ⟨9, 0x5000, 0, .direct, true, false, true⟩, dropped, by decide +kernel, rfl, by decide +kernel,
    ⟨by decide +kernel, by decide +kernel⟩, by decide +kernel⟩

end
end BoarOS.MemoryObject
