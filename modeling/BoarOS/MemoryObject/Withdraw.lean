import BoarOS.MemoryObject.Steps

namespace BoarOS.MemoryObject
open Function List Option MemoryObject.System Machine Page

/-! # Pages that are given up -/

variable {page : Page}

theorem PageOk.accept (ok : PageOk page) (underway : page.publication ≠ .direct) : PageOk (page.finish true) := by
  obtain ⟨direct, -, -, -⟩ := ok
  refine ⟨?_, ?_, nofun, nofun⟩
  · simpa [finish] using fun byGet => by simpa [byGet] using mt direct.mpr underway
  · simp [finish]

theorem PageOk.reject (ok : PageOk page) (underway : page.publication ≠ .direct)
    (stays : (page.finish false).preparations ≠ 0 ∨ page.publication = .adopted) : PageOk (page.finish false) := by
  refine ⟨ok.direct, ok.preparing, fun direct => absurd direct underway, fun prep => ?_⟩
  rcases stays with more | adopted
  · exact more
  · exact absurd (prep.symm.trans adopted) nofun

theorem Page.Continues.finish (page : Page) (ok : Bool) : page.Continues (page.finish ok) :=
  ⟨rfl, rfl, rfl, id, fun obtained => by simp [Page.finish, obtained]⟩

variable {ι : Type} [PageGeometry] [DecidableEq ι] [Fintype ι] {s : System ι} {obj : ι}

namespace Consistent
variable (con : Consistent s)
include con

theorem finish_absent (isPending : tok ∈ s.pending) (out : ∀ page ∈ (s.objects tok.object).pages, page.index = tok.index →
      page.physicalAddress ≠ tok.address) : Progress s (.finish tok false) := by
  have nowhere : ∀ pos, ∀ page ∈ (s.objects pos).pages, page.physicalAddress ≠ tok.address := by
    intro pos page mem here
    obtain ⟨objectEq, indexEq⟩ := (con.frame tok.address).token pos page mem here tok (mem_tokensAt.mpr ⟨isPending, rfl⟩)
    exact out page (objectEq ▸ mem) indexEq.symm here
  have refs := (con.frame tok.address).loose nowhere
  have erased := tokensAt_erase_self isPending
  have old : ((s.objects tok.object).find tok.index).filter (fun page => page.physicalAddress == tok.address) = none := by
    rw [filter_eq_none_iff]
    intro page got
    obtain ⟨mem, eq⟩ := find_some got
    simpa using out page mem eq
  refine ⟨{ status := .ok }, ⟨s.machine.refer tok.address (s.machine.references tok.address - 1),
    s.objects, s.pending.erase tok, s.held⟩, ?_, ?_, ?_⟩
  · rw [step, kernelMemoryObjectFinishPage, old]
    simp only [Bool.false_eq_true, if_false]
    rw [physicalPageRelease, if_neg (by omega), map_some, map_some, put, update_eq_self, refer]
  · refine con.holders tok.address ⟨fun k ne => update_of_ne ne _ _, fun k ne => tokensAt_erase_other _ ne, fun _ _ => rfl⟩
      (FrameOk.of_loose nowhere ?_) (fun k otherIn => mem_of_mem_erase otherIn) ⟨rfl, rfl, rfl⟩
    simp only [refer, update_self]
    omega
  · refine Moves.still (fun pos page mem gone => ?_) fun _ _ => Iff.rfl
    obtain ⟨-, tokenEq, -⟩ := gone
    exact nowhere pos page mem (by rw [tokenEq])

omit [DecidableEq ι] in
theorem underway (mem : page ∈ (s.objects obj).pages)
    (isPending : (⟨obj, page.index, page.physicalAddress⟩ : Token ι) ∈ s.pending) : page.preparations ≠ 0 ∧ page.publication ≠ .direct := by
  have preps := (con.frame page.physicalAddress).preparations obj page mem rfl
  have some_ := length_pos_of_mem (mem_tokensAt.mpr ⟨isPending, rfl⟩)
  have prep : page.preparations ≠ 0 := by
    simp only at some_
    omega
  exact ⟨prep, fun direct => prep (((con.object obj).page page mem).untouched direct)⟩

theorem finish_accepted_eq (mem : page ∈ (s.objects obj).pages)
    (isPending : (⟨obj, page.index, page.physicalAddress⟩ : Token ι) ∈ s.pending) :
    s.step (.finish ⟨obj, page.index, page.physicalAddress⟩ true) = some ({ status := .ok },
      ⟨s.machine, update s.objects obj ((s.objects obj).edit page.index fun page => some (page.finish true)),
        s.pending.erase ⟨obj, page.index, page.physicalAddress⟩, page.physicalAddress :: s.held⟩) := by
  obtain ⟨prep, underway⟩ := con.underway mem isPending
  rw [step, kernelMemoryObjectFinishPage, (con.object obj).find_eq mem]
  simp only [filter_some, beq_self_eq_true, if_true]
  rw [if_neg (not_or.mpr ⟨prep, underway⟩), if_pos (.inr rfl), map_some, put]

theorem finish_accepted (mem : page ∈ (s.objects obj).pages) (isPending : (⟨obj, page.index, page.physicalAddress⟩ : Token ι) ∈ s.pending) :
    Progress s (.finish ⟨obj, page.index, page.physicalAddress⟩ true) := by
  have ok := con.frame page.physicalAddress
  have refs := ok.references obj page mem rfl
  have preps := ok.preparations obj page mem rfl
  have erased := tokensAt_erase_self isPending
  obtain ⟨_, underway⟩ := con.underway mem isPending
  simp only at erased
  have unremoved : ∀ pos, ∀ q ∈ (s.objects pos).pages, ¬ (Step.finish ⟨obj, page.index, page.physicalAddress⟩ true).Removes s pos q :=
    fun _ _ _ gone => nomatch gone.1
  refine ⟨_, _, con.finish_accepted_eq mem isPending, con.edited mem unremoved
    (fun page => some (page.finish true)) rfl (Continues.finish page true)
    (((con.object obj).page page mem).accept underway)
    ⟨fun _ _ => rfl, fun k ne => tokensAt_erase_other _ ne, fun k ne => count_cons_of_ne (Ne.symm ne)⟩ ?_ ?_
    (fun tok tokenIn => .inl (mem_of_mem_erase tokenIn)) (fun still => nomatch still) ⟨rfl, rfl, rfl⟩⟩
  · rw [count_cons_self]
    omega
  · simp only [finish]
    omega

theorem finish_rejected (mem : page ∈ (s.objects obj).pages) (isPending : (⟨obj, page.index, page.physicalAddress⟩ : Token ι) ∈ s.pending) :
    Progress s (.finish ⟨obj, page.index, page.physicalAddress⟩ false) := by
  have ok := con.frame page.physicalAddress
  have refs := ok.references obj page mem rfl
  have preps := ok.preparations obj page mem rfl
  have erased := tokensAt_erase_self isPending
  have pageOk := (con.object obj).page page mem
  obtain ⟨prep, underway⟩ := con.underway mem isPending
  simp only at erased
  have freed : physicalPageRelease s.machine page.physicalAddress =
      some (s.machine.refer page.physicalAddress (s.machine.references page.physicalAddress - 1)) := by
    rw [physicalPageRelease, if_neg (by omega), refer]
  have away : ∀ other, other ≠ page.physicalAddress →
      (s.machine.refer page.physicalAddress (s.machine.references page.physicalAddress - 1)).references other =
      s.machine.references other := fun other ne => update_of_ne ne _ _
  have removes : ∀ pos, ∀ q ∈ (s.objects pos).pages, ((Step.finish ⟨obj, page.index, page.physicalAddress⟩ false).Removes s pos q ↔
        (pos = obj ∧ q.index = page.index) ∧ page.publication = .preparing ∧ page.preparations = 1) := by
    intro pos q qIn
    rw [pageOk.preparing]
    constructor
    · rintro ⟨-, tokenEq, byGet, obtained, last⟩
      simp only [Token.mk.injEq] at tokenEq
      obtain ⟨rfl, eq, -⟩ := tokenEq
      rw [(con.object obj).same_index qIn mem eq]
      exact ⟨⟨rfl, rfl⟩, ⟨byGet, obtained⟩, last⟩
    · rintro ⟨⟨rfl, eq⟩, ⟨byGet, obtained⟩, last⟩
      rw [(con.object pos).same_index mem qIn eq]
      exact ⟨rfl, rfl, byGet, obtained, last⟩
  rw [Progress, step, kernelMemoryObjectFinishPage, (con.object obj).find_eq mem]
  simp only [filter_some, beq_self_eq_true, if_true, Bool.false_eq_true, if_false]
  rw [if_neg (not_or.mpr ⟨prep, underway⟩), freed]
  dsimp only
  by_cases stays : (page.finish false).preparations ≠ 0 ∨ (page.finish false).publication = .adopted
  · have unremoved : ∀ pos, ∀ q ∈ (s.objects pos).pages, ¬ (Step.finish ⟨obj, page.index, page.physicalAddress⟩ false).Removes s pos q := by
      intro pos q qIn gone
      obtain ⟨-, preparing, last⟩ := (removes pos q qIn).mp gone
      rcases stays with more | adopted
      · simp only [finish] at more
        omega
      · exact absurd (preparing.symm.trans adopted) (by simp)
    have next : Consistent (⟨s.machine.refer page.physicalAddress (s.machine.references page.physicalAddress - 1),
        _, s.pending.erase ⟨obj, page.index, page.physicalAddress⟩, s.held⟩ : System ι) ∧
        Moves s (.finish ⟨obj, page.index, page.physicalAddress⟩ false) _ := con.edited mem unremoved
      (fun page => some (page.finish false)) rfl (Continues.finish page false)
      (pageOk.reject underway stays)
      ⟨away, fun other ne => tokensAt_erase_other _ ne, fun _ _ => rfl⟩
      (by simp only [refer, update_self]; omega) (by simp only [finish]; omega)
      (fun tok tokenIn => .inl (mem_of_mem_erase tokenIn))
      (fun still => ok.unadopted obj page mem rfl still) ⟨rfl, rfl, rfl⟩
    refine ⟨{ status := .ok }, _, ?_, next⟩
    rw [if_pos stays, map_some, put]
  obtain ⟨last, unadopted⟩ := not_or.mp stays
  have preparing : page.publication = .preparing := by
    cases publication : page.publication with
    | direct => exact absurd publication underway
    | preparing => rfl
    | adopted => exact absurd publication unadopted
  have nobody := ok.unadopted obj page mem rfl preparing
  have one : page.preparations = 1 := by
    simp only [finish] at last
    omega
  obtain ⟨_, usedLe⟩ := con.counters.pages_le obj
  have some_ := length_pos_of_mem mem
  have left : (s.machine.refer page.physicalAddress
      (s.machine.references page.physicalAddress - 1)).references page.physicalAddress = 1 := by
    simp only [refer, update_self]
    omega
  have gone := removePage_eq (s.machine.refer page.physicalAddress
    (s.machine.references page.physicalAddress - 1)) (s.objects obj) page.index page.physicalAddress
    (by simp only [refer]; omega)
    (fun acc mine => by have := usedLe acc mine; simp only [refer]; omega) (by omega)
  have next : Consistent (⟨((s.machine.refer page.physicalAddress
        (s.machine.references page.physicalAddress - 1)).uncharged (s.objects obj).budget 1).refer
        page.physicalAddress 0, _, s.pending.erase ⟨obj, page.index, page.physicalAddress⟩,
        s.held⟩ : System ι) ∧
      Moves s (.finish ⟨obj, page.index, page.physicalAddress⟩ false) _ := con.removed mem
    (fun pos q qIn => (removes pos q qIn).trans (and_iff_left ⟨preparing, one⟩))
    ⟨fun other ne => (update_of_ne ne _ _).trans (away other ne), fun other ne => tokensAt_erase_other _ ne, fun _ _ => rfl⟩
    (by simp only [refer, update_self]; omega)
    (fun tok tokenIn => mem_of_mem_erase tokenIn) rfl (fun _ => rfl) rfl
  refine ⟨{ status := .ok }, _, ?_, next⟩
  rw [if_neg stays, if_neg (not_not.mpr left), gone, left, map_some, put]

theorem finish (ok : (Step.finish tok accepted).Allowed s) : Progress s (.finish tok accepted) := by
  obtain ⟨isPending, -, has⟩ := ok
  by_cases here : ∃ page ∈ (s.objects tok.object).pages, page.index = tok.index ∧ page.physicalAddress = tok.address
  · obtain ⟨page, mem, i, addr⟩ := here
    obtain ⟨_, _⟩ := tok
    subst i addr
    cases accepted with
    | true => exact con.finish_accepted mem isPending
    | false => exact con.finish_rejected mem isPending
  · cases accepted with
    | true => exact absurd (has rfl) here
    | false =>
      exact con.finish_absent isPending fun page mem i addr => here ⟨page, mem, i, addr⟩

theorem discard (i addr : Nat) : Progress s (.discard obj i addr) := by
  have unchanged : kernelMemoryObjectDiscardNewPage s.machine (s.objects obj) i addr = some (s.machine, s.objects obj) →
      (∀ q ∈ (s.objects obj).pages, ¬ (Step.discard obj i addr).Removes s obj q) →
      Progress s (.discard obj i addr) := by
    intro res removes
    refine ⟨{ status := .ok }, s, ?_, con, Moves.still (fun pos q qIn gone => ?_) fun _ _ => Iff.rfl⟩
    · simp only [step, res, map_some, put_self]
    obtain ⟨rfl, rest⟩ := gone
    exact removes q qIn ⟨rfl, rest⟩
  cases got : (s.objects obj).find i with
  | none =>
    refine unchanged (by rw [kernelMemoryObjectDiscardNewPage, got]) fun q qIn gone => ?_
    exact (con.object obj).find_none got q qIn gone.2.1.symm
  | some page =>
    obtain ⟨mem, rfl⟩ := find_some got
    have pageOk := (con.object obj).page page mem
    have refs := (con.frame page.physicalAddress).references obj page mem rfl
    have only : ∀ q ∈ (s.objects obj).pages, (Step.discard obj page.index addr).Removes s obj q →
        addr = page.physicalAddress ∧ page.publication = .direct ∧ s.machine.references addr = 1 := by
      rintro q qIn ⟨-, eq, addrEq, byGet, prep, last⟩
      rw [← (con.object obj).same_index qIn mem eq] at addrEq byGet prep
      exact ⟨addrEq, pageOk.direct.mpr ⟨byGet, prep⟩, last⟩
    by_cases other : page.physicalAddress ≠ addr ∨ page.preparations ≠ 0 ∨ page.publication = .adopted
    · refine unchanged (by rw [kernelMemoryObjectDiscardNewPage, got]; exact if_pos other) fun q qIn gone => ?_
      obtain ⟨eq, direct, -⟩ := only q qIn gone
      rcases other with ne | prep | adopted
      · exact ne eq.symm
      · exact prep (pageOk.untouched direct)
      · exact absurd (direct.symm.trans adopted) (by simp)
    obtain ⟨eq, none_, unadopted⟩ : page.physicalAddress = addr ∧ page.preparations = 0 ∧ page.publication ≠ .adopted := by
      simpa only [not_or, not_not] using other
    subst eq
    by_cases last : s.machine.references page.physicalAddress = 1
    · have direct : page.publication = .direct := by
        cases publication : page.publication with
        | direct => rfl
        | preparing => exact absurd none_ (pageOk.underway publication)
        | adopted => exact absurd publication unadopted
      obtain ⟨byGet, unprepared⟩ := pageOk.direct.mp direct
      obtain ⟨_, usedLe⟩ := con.counters.pages_le obj
      have some_ := length_pos_of_mem mem
      have gone := removePage_eq s.machine (s.objects obj) page.index page.physicalAddress (by omega)
        (fun acc mine => by have := usedLe acc mine; omega) (by omega)
      have removes : ∀ pos, ∀ q ∈ (s.objects pos).pages,
          ((Step.discard obj page.index page.physicalAddress).Removes s pos q ↔ pos = obj ∧ q.index = page.index) := by
        refine fun pos q qIn => ⟨fun gone => ⟨gone.1.symm, gone.2.1.symm⟩, ?_⟩
        rintro ⟨rfl, sameIndex⟩
        rw [(con.object pos).same_index mem qIn sameIndex]
        exact ⟨rfl, rfl, rfl, byGet, unprepared, last⟩
      have next : Consistent (⟨(s.machine.uncharged (s.objects obj).budget 1).refer page.physicalAddress 0,
            _, s.pending, s.held⟩ : System ι) ∧
          Moves s (.discard obj page.index page.physicalAddress) _ := con.removed mem removes
        ⟨fun other ne => update_of_ne ne _ _, fun _ _ => rfl, fun _ _ => rfl⟩
        (by simp only [refer, update_self]; omega) (fun _ => id) rfl (fun _ => rfl) rfl
      refine ⟨{ status := .ok }, _, ?_, next⟩
      rw [step, kernelMemoryObjectDiscardNewPage, got]
      simp only
      rw [if_neg other, if_neg (by omega), if_neg (not_not.mpr last), gone, last, map_some, put]
    · refine unchanged ?_ fun q qIn gone => last (only q qIn gone).2.2
      rw [kernelMemoryObjectDiscardNewPage, got]
      simp only
      rw [if_neg other, if_neg (by omega), if_pos last]

end Consistent
end BoarOS.MemoryObject
