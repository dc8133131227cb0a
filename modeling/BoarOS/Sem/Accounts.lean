import BoarOS.Sem.Invariant

namespace BoarOS.Sem
open Data Function

/-! # Accounting of adjustments -/

variable {sets sets' : Sets} {es : Entries} {groups : Groups} {ts : Tasks} {adjs : Adjustments}
  {trace : List Event} {id i : Nat} {set set' : SemSet} {req : Request}

theorem applied_adjustment : (applied ops cells).adjustment i = cells.adjustment i - undoSum i ops := by
  induction ops generalizing cells with
  | nil => simp [undoSum]
  | cons op rest ih =>
    rw [applied_cons, ih, undoSum]
    by_cases undoes : op.undoes = true
    · by_cases here : op.num = i
      · subst here
        simp only [Sembuf.apply, undoes, if_true, update_self, and_self]
        omega
      · simp only [Sembuf.apply, undoes, if_true, update_of_ne (Ne.symm here)]
        omega
    · rw [if_neg fun both => undoes both.1]
      simp only [Sembuf.apply, if_neg undoes]
      omega

theorem undoSum_none (none_ : ∀ op ∈ ops, op.undoes = false) : undoSum i ops = 0 := by
  induction ops with
  | nil => rfl
  | cons op rest ih =>
    rw [undoSum, none_ op List.mem_cons_self, ih fun k mem => none_ k (List.mem_cons_of_mem _ mem)]
    simp

section
variable (accs : Accounts sets es adjs trace)
include accs

theorem Accounts.resize (values : ∀ id set, sets' id = some set → ∀ i, 0 ≤ set.value i ∧ set.value i ≤ kernelSEMVMX)
    (removed : ∀ id set, sets id = some set → set.removed = true → ∃ set', sets' id = some set' ∧ set'.removed = true) :
    Accounts sets' es adjs trace := by
  refine ⟨values, accs.adjusted, accs.linked, accs.untouched, accs.pending, fun e r old loose => ?_⟩
  rcases accs.spent e r old loose with once | ⟨never, set, got, gone⟩
  · exact .inl once
  · exact .inr ⟨never, removed _ set got gone⟩

theorem Accounts.setSet (got : sets id = some set) (values : ∀ i, 0 ≤ set'.value i ∧ set'.value i ≤ kernelSEMVMX)
    (removed : set.removed = true → set'.removed = true) : Accounts (update sets id (some set')) es adjs trace := by
  refine accs.resize (fun k there_ mem => ?_) fun k there_ mem gone => ?_
  · obtain ⟨rfl, ⟨⟩⟩ | ⟨eq, mem⟩ := of_update_eq mem
    · exact values
    · exact accs.values k there_ mem
  · exact update_has got removed mem gone

theorem Accounts.request_ranged (req : Request) (i : Nat) :
    -kernelSEMAEM - 1 ≤ req.adjustment adjs i ∧ req.adjustment adjs i ≤ kernelSEMAEM := by
  unfold Request.adjustment
  cases req.undo with
  | none =>
    dsimp only
    decide
  | some e => exact accs.adjusted e i

theorem Accounts.granted (got : sets id = some set) (links : Links sets es groups) (owns : Owns es ts id req)
    (link : ∀ e, req.undo = some e → ∃ r, es e = some r ∧ r.set = id ∧ r.linked = true ∧ (ts req.task).undo = some r.group)
    (runs : Runs req.ops ⟨set.value, req.adjustment adjs⟩)
    (v : set'.value = (applied req.ops ⟨set.value, req.adjustment adjs⟩).value) (removed : set'.removed = set.removed) :
    Accounts (update sets id (some set')) es (req.store adjs (applied req.ops ⟨set.value, req.adjustment adjs⟩).adjustment)
      (.completed (ts req.task).undo id req.ops :: trace) := by
  have ranged : ∀ i, (applied req.ops ⟨set.value, req.adjustment adjs⟩).Ranged (i + 1) := by
    intro i
    refine Cells.Ranged.applied (fun j _ => ?_) runs
    obtain ⟨low, high⟩ := accs.values id set got j
    obtain ⟨lt, large⟩ := accs.request_ranged req j
    exact ⟨low, high, lt, large⟩
  have values : ∀ i, 0 ≤ set'.value i ∧ set'.value i ≤ kernelSEMVMX := by
    intro i
    obtain ⟨low, high, _⟩ := ranged i i (Nat.lt_succ_self i)
    rw [v]
    exact ⟨low, high⟩
  have sized := accs.setSet got values (fun gone => removed.trans gone)
  have new : ∀ g home, Event.applied g home ∉ trace → Event.applied g home ∉ Event.completed (ts req.task).undo id req.ops :: trace := by
    intro g home never
    simpa using never
  have n : ∀ g home, (Event.completed (ts req.task).undo id req.ops :: trace).count (.applied g home) = trace.count (.applied g home) := by
    intro g home
    exact List.count_cons_of_ne (by simp)
  refine ⟨sized.values, fun e i => ?_, fun e r known hangs i => ?_, fun g home out => ?_,
    fun e r known hangs => new _ _ (sized.pending e r known hangs), fun e r known loose => ?_⟩
  · unfold Request.store
    cases refers : req.undo with
    | none => exact accs.adjusted e i
    | some owner =>
      dsimp only
      by_cases eq : e = owner
      · subst eq
        obtain ⟨_, _, lt, large⟩ := ranged i i (Nat.lt_succ_self i)
        rw [update_self]
        exact ⟨lt, large⟩
      · rw [update_of_ne eq]
        exact accs.adjusted e i
  · have pre := accs.linked e r known hangs i
    rw [owed]
    unfold Request.store
    cases refers : req.undo with
    | none =>
      rw [undoSum_none (owns.covered refers)]
      dsimp only
      omega
    | some owner =>
      obtain ⟨own, knownOwn, home, _, belongs⟩ := link owner refers
      dsimp only
      by_cases eq : e = owner
      · subst eq
        rw [known] at knownOwn
        cases knownOwn
        rw [update_self, applied_adjustment, if_pos ⟨belongs, home.symm⟩]
        have old : req.adjustment adjs i = adjs e i := by
          rw [Request.adjustment, refers]
        dsimp only
        omega
      rw [update_of_ne eq, if_neg]
      · omega
      rintro ⟨mine, here⟩
      rw [belongs, Option.some.injEq] at mine
      exact eq (links.unique e owner r own known knownOwn mine.symm (here.symm.trans home.symm))
  · obtain ⟨nothing, never⟩ := accs.untouched g home out
    refine ⟨fun i => ?_, new g home never⟩
    rw [owed, nothing i]
    cases refers : req.undo with
    | none =>
      rw [undoSum_none (owns.covered refers), ite_self]
      rfl
    | some owner =>
      obtain ⟨own, knownOwn, at_, _, belongs⟩ := link owner refers
      rw [if_neg]
      · rfl
      rintro ⟨mine, here⟩
      rw [belongs, Option.some.injEq] at mine
      exact out owner own knownOwn ⟨mine, at_.trans here⟩
  · rcases sized.spent e r known loose with once | ⟨never, rest⟩
    · exact .inl ((n _ _).trans once)
    · exact .inr ⟨new _ _ never, rest⟩

end

def Event.stored (id : Nat) : Option Nat → Event
  | some num => .setVal id num
  | none => .setAll id

/-- `clear_adjustments`, booked as the event of `SETVAL` or `SETALL`. -/
theorem Accounts.clear (accs : Accounts sets es adjs trace) (links : Links sets es groups) (got : sets id = some set) (num : Option Nat)
    (is : event = .stored id num) : Accounts sets es (System.clearAdjustments set adjs num) (event :: trace) := by
  have owes : ∀ g home i, owed g home i (event :: trace) = if home = id ∧ num.all (· = i) = true then 0 else owed g home i trace := by
    intro g home i
    subst is
    cases num with
    | none | some =>
      rw [Event.stored, owed]
      simp [eq_comm]
  have new : ∀ g home, Event.applied g home ∉ trace → Event.applied g home ∉ event :: trace := by
    intro g home never
    subst is
    cases num <;> simpa [Event.stored] using never
  have n : ∀ g home, (event :: trace).count (.applied g home) = trace.count (.applied g home) := by
    intro g home
    subst is
    cases num <;> exact List.count_cons_of_ne (by simp [Event.stored])
  refine ⟨accs.values, fun e i => ?_, fun e r old hangs i => ?_, fun g home out => ?_,
    fun e r old hangs => new _ _ (accs.pending e r old hangs), fun e r old loose => ?_⟩
  · unfold System.clearAdjustments
    split
    · decide
    · exact accs.adjusted e i
  · rw [owes]
    unfold System.clearAdjustments
    have mem : e ∈ set.undo ↔ r.set = id := by
      rw [links.inSet id set got e]
      constructor
      · rintro ⟨k, there, at_, _⟩
        rw [old] at there
        cases there
        exact at_
      · exact fun at_ => ⟨r, old, at_, hangs⟩
    simp only [mem]
    split
    · rfl
    · exact accs.linked e r old hangs i
  · obtain ⟨nothing, never⟩ := accs.untouched g home out
    refine ⟨fun i => ?_, new g home never⟩
    rw [owes, nothing i, ite_self]
  · rcases accs.spent e r old loose with once | ⟨never, rest⟩
    · exact .inl ((n _ _).trans once)
    · exact .inr ⟨new _ _ never, rest⟩

end BoarOS.Sem
