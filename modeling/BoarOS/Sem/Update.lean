import BoarOS.Sem.System

namespace BoarOS.Sem
open List

/-! # What `set_update` leaves behind -/

def Request.Stuck (request : Request) (value adjustment : Nat → Int) : Prop :=
  ∃ before op after, request.ops = before ++ op :: after ∧ request.blocking = before.length ∧
    Runs before ⟨value, adjustment⟩ ∧ op.Blocks (applied before ⟨value, adjustment⟩) ∧ op.nowait = false

/-- `alter` tells whether an operation changes a value. -/
def Request.Honest (request : Request) : Prop :=
  request.alter = false → ∀ op ∈ request.ops, op.amount = 0

section
variable {now : Int} {req : Request} {set : SemSet} {adj : Nat → Int} {adjs : Adjustments}

theorem Request.Stuck.requestTry (stuck : req.Stuck set.value adj) : requestTry now req set adj = ⟨1, req.blocking, set, adj⟩ := by
  obtain ⟨_, _, _, split, i, runs, blocks, waits⟩ := stuck
  rw [requestTry_blocks split runs blocks, i, waits]
  rfl

theorem requestTry_refused (refused : (requestTry now req set adj).result ≠ 0) : requestTry now req set adj =
      ⟨(requestTry now req set adj).result, (requestTry now req set adj).blocking, set, adj⟩ := by
  rcases requestTry_cases now req set adj with ⟨_, zero⟩ | ⟨_, _, _, _, _, _, done⟩ | ⟨_, _, _, _, _, _, done⟩
  · exact absurd zero refused
  · rw [done]
  · rw [done]

theorem requestTry_granted (granted : (requestTry now req set adj).result = 0) : Runs req.ops ⟨set.value, adj⟩ := by
  rcases requestTry_cases now req set adj with ⟨runs, _⟩ | ⟨_, _, _, _, _, _, done⟩ | ⟨_, _, _, _, _, _, done⟩
  · exact runs
  · rw [done] at granted
    split at granted <;> cases granted
  · rw [done] at granted
    cases granted

theorem requestTry_stuck (waits : (requestTry now req set adj).result = 1) :
    ({ req with blocking := (requestTry now req set adj).blocking } : Request).Stuck set.value
      adj := by
  rcases requestTry_cases now req set adj with ⟨_, zero⟩ | ⟨pre, op, s', split, runs, blocks, done⟩ | ⟨_, _, _, _, _, _, done⟩
  · rw [zero] at waits
    cases waits
  · rw [done] at waits ⊢
    refine ⟨pre, op, s', split, rfl, runs, blocks, ?_⟩
    cases nowait : op.nowait with
    | false => rfl
    | true =>
      rw [nowait] at waits
      cases waits
  · rw [done] at waits
    cases waits

@[simp] theorem Request.store_same : req.store adjs (req.adjustment adjs) = adjs := by
  unfold Request.store Request.adjustment
  cases req.undo with
  | none => rfl
  | some entry => exact Function.update_eq_self entry adjs

theorem applied_zero (zero : ∀ op ∈ ops, op.amount = 0) : applied ops cells = cells := by
  induction ops generalizing cells with
  | nil => rfl
  | cons op rest ih =>
    have none_ := zero op (.head _)
    have eq : op.apply cells = cells := by
      cases cells
      simp [Sembuf.apply, none_]
    rw [applied_cons, eq]
    exact ih fun k mem => zero k (.tail _ mem)

end

section
variable {now : Int} {passed remaining queue : List Request} {update s' : Update}

def Update.Stuck (update : Update) (queue : List Request) : Prop :=
  ∀ request ∈ queue, request.Stuck update.set.value (request.adjustment update.adjustments)

theorem Update.attempt_refused (refused : (update.attempt now req).result ≠ 0) : (update.attempt now req).set = update.set ∧
      req.store update.adjustments (update.attempt now req).adjustment = update.adjustments := by
  unfold Update.attempt at refused ⊢
  rw [requestTry_refused refused]
  exact ⟨rfl, Request.store_same⟩

/-- A completion that does not alter anything leaves the values and adjustments alone. -/
theorem Update.complete_quiet (honest : req.Honest) (quiet : ¬ ((update.attempt now req).result = 0 ∧ req.alter = true)) :
    (update.complete req (update.attempt now req)).set.value = update.set.value ∧
      (update.complete req (update.attempt now req)).adjustments = update.adjustments := by
  by_cases granted : (update.attempt now req).result = 0
  · have still : req.alter = false := by
      cases alters : req.alter with
      | false => rfl
      | true => exact absurd ⟨granted, alters⟩ quiet
    have runs := requestTry_granted granted
    have eq := @applied_zero req.ops ⟨update.set.value, req.adjustment update.adjustments⟩ (honest still)
    simp [Update.complete, Update.attempt, requestTry_runs runs, eq, Request.store_same, and_self]
  · obtain ⟨sameSet, sameAdj⟩ := Update.attempt_refused granted
    exact ⟨congrArg SemSet.value sameSet, sameAdj⟩

theorem scan_shorter (again : (scan now passed remaining update).1 = true) :
    (scan now passed remaining update).2.1.length < passed.length + remaining.length := by
  induction remaining generalizing passed update with
  | nil => cases again
  | cons req rest ih =>
    unfold scan at again ⊢
    dsimp only at again ⊢
    split at again
    next waits =>
      rw [if_pos waits]
      have bound := ih again
      rw [length_append] at bound
      simpa [Nat.add_assoc, Nat.add_comm 1] using bound
    rename_i ends
    rw [if_neg ends]
    split at again
    next moved =>
      rw [if_pos moved]
      simp
    rename_i quiet
    rw [if_neg quiet]
    have bound := ih again
    rw [length_cons]
    omega

theorem scan_stuck (honest : ∀ req ∈ remaining, req.Honest) (stuck : update.Stuck passed)
    (ends : (scan now passed remaining update).1 = false) :
    (scan now passed remaining update).2.2.Stuck (scan now passed remaining update).2.1 := by
  induction remaining generalizing passed update with
  | nil => exact stuck
  | cons req rest ih =>
    have honestRest : ∀ k ∈ rest, k.Honest := fun k mem => honest k (.tail _ mem)
    unfold scan at ends ⊢
    dsimp only at ends ⊢
    by_cases waits : (update.attempt now req).result = 1
    · rw [if_pos waits] at ends ⊢
      have refused : (update.attempt now req).result ≠ 0 := by
        rw [waits]
        decide
      obtain ⟨sameSet, sameAdj⟩ := Update.attempt_refused refused
      rw [sameSet, sameAdj] at ends ⊢
      refine ih honestRest (fun k mem => ?_) ends
      rcases mem_append.mp mem with old | new
      · exact stuck k old
      rw [mem_singleton.mp new]
      exact requestTry_stuck waits
    · rw [if_neg waits] at ends ⊢
      by_cases changed : (update.attempt now req).result = 0 ∧ req.alter = true
      · rw [if_pos changed] at ends
        cases ends
      rw [if_neg changed] at ends ⊢
      obtain ⟨sameValue, sameAdj⟩ := Update.complete_quiet (honest req (.head _)) changed
      refine ih honestRest (fun k mem => ?_) ends
      rw [sameValue, sameAdj]
      exact stuck k mem

/-- What the requests and the state of an update keep while requests are tried. -/
structure Kept (now : Int) (Good : Request → Prop) (Holds : Update → Prop) : Prop where
  renumber : ∀ req blocking, Good req → Good { req with blocking := blocking }
  granted : ∀ update req, Good req → Holds update → Runs req.ops ⟨update.set.value, req.adjustment update.adjustments⟩ →
    Holds (update.complete req (update.attempt now req))
  refused : ∀ update req error, Good req → error ≠ 0 → Holds update → Holds { update with wake := (req, error) :: update.wake }

theorem scan_keeps (kept : Kept now Good Holds) (goodPassed : ∀ req ∈ passed, Good req) (good : ∀ req ∈ remaining, Good req)
    (holds : Holds update) : (∀ req ∈ (scan now passed remaining update).2.1, Good req) ∧ Holds (scan now passed remaining update).2.2 := by
  induction remaining generalizing passed update with
  | nil => exact ⟨goodPassed, holds⟩
  | cons req rest ih =>
    have goodRest : ∀ other ∈ rest, Good other := fun other mem => good other (.tail _ mem)
    have goodHead := good req (.head _)
    have completed : (update.attempt now req).result ≠ 1 → Holds (update.complete req (update.attempt now req)) := by
      intro _
      by_cases zero : (update.attempt now req).result = 0
      · exact kept.granted update req goodHead holds (requestTry_granted zero)
      obtain ⟨sameSet, sameAdj⟩ := Update.attempt_refused zero
      rw [Update.complete, sameSet, sameAdj]
      exact kept.refused update req _ goodHead zero holds
    dsimp only [scan]
    by_cases waits : (update.attempt now req).result = 1
    · rw [if_pos waits]
      have refused : (update.attempt now req).result ≠ 0 := by
        rw [waits]
        decide
      obtain ⟨sameSet, sameAdj⟩ := Update.attempt_refused refused
      rw [sameSet, sameAdj]
      refine ih (fun other mem => ?_) goodRest holds
      rcases mem_append.mp mem with old | new
      · exact goodPassed other old
      rw [mem_singleton.mp new]
      exact kept.renumber req _ goodHead
    · rw [if_neg waits]
      by_cases changed : (update.attempt now req).result = 0 ∧ req.alter = true
      · rw [if_pos changed]
        refine ⟨fun other mem => ?_, completed waits⟩
        rcases mem_append.mp mem with old | later
        · exact goodPassed other old
        · exact goodRest other later
      · rw [if_neg changed]
        exact ih goodPassed goodRest (completed waits)

theorem updateLoop_ends (enough : queue.length < scans) : ∃ s', updateLoop now scans queue update = some s' := by
  induction scans generalizing queue update with
  | zero => omega
  | succ scans ih =>
    have shorter := @scan_shorter now [] queue update
    unfold updateLoop
    split
    case h_1 left next got =>
      rw [got] at shorter
      have len := shorter rfl
      simp only [length_nil, Nat.zero_add] at len
      exact ih (by omega)
    case h_2 left next got => exact ⟨_, rfl⟩

theorem updateLoop_keeps (kept : Kept now Good Holds) (good : ∀ req ∈ queue, Good req) (holds : Holds update)
    (updated : updateLoop now scans queue update = some s') : (∀ req ∈ s'.set.queue, Good req) ∧
      ∃ final, Holds final ∧ s' = { final with set := { final.set with queue := s'.set.queue } } := by
  induction scans generalizing queue update with
  | zero => cases updated
  | succ scans ih =>
    obtain ⟨goodAfter, holdsAfter⟩ := @scan_keeps now [] queue update _ _ kept nofun good holds
    unfold updateLoop at updated
    split at updated
    case h_1 left next got =>
      rw [got] at goodAfter holdsAfter
      exact ih goodAfter holdsAfter updated
    case h_2 left next got =>
      rw [got] at goodAfter holdsAfter
      cases updated
      exact ⟨goodAfter, next, holdsAfter, rfl⟩

theorem updateLoop_stuck {scans : Nat} (honest : ∀ req ∈ queue, req.Honest)
    (updated : updateLoop now scans queue update = some s') : s'.Stuck s'.set.queue := by
  induction scans generalizing queue update with
  | zero => cases updated
  | succ scans ih =>
    have stuck := @scan_stuck now [] queue update honest nofun
    have kept : Kept now Request.Honest fun _ => True := ⟨fun _ _ keep => keep, fun _ _ _ _ _ => trivial, fun _ _ _ _ _ _ => trivial⟩
    have honestAfter := (@scan_keeps now [] queue update _ _ kept nofun honest trivial).1
    unfold updateLoop at updated
    split at updated
    case h_1 left next got =>
      rw [got] at honestAfter
      exact ih honestAfter updated
    case h_2 left next got =>
      rw [got] at stuck
      cases updated
      exact stuck rfl

end
end BoarOS.Sem
