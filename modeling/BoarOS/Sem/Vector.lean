import BoarOS.Sem.Model

namespace BoarOS.Sem
open Function List Sembuf

/-! # Vectors of operations

What a vector means when its operations are applied one after another, and that
`request_try` does either all of it or nothing.
-/

/-- The operation waits: for a zero, or for a value that it can be taken from. -/
def Sembuf.Blocks (op : Sembuf) (cells : Cells) : Prop :=
  (op.amount = 0 ∧ cells.value op.num ≠ 0) ∨ cells.value op.num + op.amount < 0

/-- The operation does not wait, and its value or its adjustment leaves the range. -/
def Sembuf.Overflows (op : Sembuf) (cells : Cells) : Prop :=
  ¬ op.Blocks cells ∧ (cells.value op.num + op.amount > kernelSEMVMX ∨
    op.undoes = true ∧ (cells.adjustment op.num - op.amount < -kernelSEMAEM - 1 ∨ cells.adjustment op.num - op.amount > kernelSEMAEM))

def Sembuf.apply (op : Sembuf) (cells : Cells) : Cells :=
  { value := Function.update cells.value op.num (cells.value op.num + op.amount)
    adjustment := if op.undoes then
        Function.update cells.adjustment op.num (cells.adjustment op.num - op.amount)
      else cells.adjustment }

def applied (ops : List Sembuf) (cells : Cells) : Cells := ops.foldl (fun cells op => op.apply cells) cells

def Runs : List Sembuf → Cells → Prop
  | [], _ => True
  | op :: rest, cells => ¬ op.Blocks cells ∧ ¬ op.Overflows cells ∧ Runs rest (op.apply cells)

def Cells.Ranged (cells : Cells) (nsems : Nat) : Prop :=
  ∀ i < nsems, 0 ≤ cells.value i ∧ cells.value i ≤ kernelSEMVMX ∧ -kernelSEMAEM - 1 ≤ cells.adjustment i ∧ cells.adjustment i ≤ kernelSEMAEM

variable {op : Sembuf} {ops before after : List Sembuf} {cells : Cells} {nsems blocking i : Nat}

@[simp] theorem applied_nil : applied [] cells = cells := rfl
@[simp] theorem applied_cons : applied (op :: ops) cells = applied ops (op.apply cells) := rfl

theorem runs_append : Runs (before ++ after) cells ↔ Runs before cells ∧ Runs after (applied before cells) := by
  induction before generalizing cells with
  | nil => simp [Runs]
  | cons op before ih => simp only [cons_append, Runs, applied_cons, ih, and_assoc]

/-- A vector that cannot run to its end has a first operation that stops it. -/
theorem runs_or_stops (ops : List Sembuf) (cells : Cells) :
    Runs ops cells ∨ ∃ before op after, ops = before ++ op :: after ∧ Runs before cells ∧
      (op.Blocks (applied before cells) ∨ op.Overflows (applied before cells)) := by
  induction ops generalizing cells with
  | nil => exact .inl trivial
  | cons op rest ih =>
    by_cases blocks : op.Blocks cells
    · exact .inr ⟨[], op, rest, rfl, trivial, .inl blocks⟩
    by_cases overflows : op.Overflows cells
    · exact .inr ⟨[], op, rest, rfl, trivial, .inr overflows⟩
    rcases ih (op.apply cells) with runs | ⟨before, last, after, rfl, runs, stops⟩
    · exact .inl ⟨blocks, overflows, runs⟩
    · exact .inr ⟨op :: before, last, after, rfl, ⟨blocks, overflows, runs⟩, stops⟩

theorem Sembuf.within (blocks : ¬ op.Blocks cells) (overflows : ¬ op.Overflows cells) :
    ¬ cells.value op.num + op.amount > kernelSEMVMX ∧ (op.undoes = true →
      ¬ (cells.adjustment op.num - op.amount < -kernelSEMAEM - 1 ∨ cells.adjustment op.num - op.amount > kernelSEMAEM)) := by
  rw [← not_and, ← not_or]
  exact fun out => overflows ⟨blocks, out⟩

theorem tryLoop_proceeds (blocks : ¬ op.Blocks cells) (overflows : ¬ op.Overflows cells) :
    tryLoop blocking (op :: ops) i cells = tryLoop blocking ops (i + 1) (op.apply cells) := by
  have within := within blocks overflows
  rw [Blocks] at blocks
  rw [tryLoop, if_neg blocks, if_neg within.1]
  by_cases undoes : op.undoes = true
  · rw [if_pos undoes, if_neg (within.2 undoes), apply, if_pos undoes]
  · rw [if_neg undoes, apply, if_neg undoes]

theorem tryLoop_blocks (blocks : op.Blocks cells) :
    tryLoop blocking (op :: ops) i cells = ⟨if op.nowait then -kernelEAGAIN else 1, i, i, cells⟩ := by
  rw [Blocks] at blocks
  rw [tryLoop, if_pos blocks]

theorem tryLoop_overflows (overflows : op.Overflows cells) :
    tryLoop blocking (op :: ops) i cells = ⟨-kernelERANGE, i, blocking, cells⟩ := by
  obtain ⟨blocks, out⟩ := overflows
  rw [Blocks] at blocks
  rw [tryLoop, if_neg blocks]
  by_cases high : cells.value op.num + op.amount > kernelSEMVMX
  · rw [if_pos high]
  obtain ⟨undoes, far⟩ := out.resolve_left high
  rw [if_neg high, if_pos undoes, if_pos far]

theorem tryLoop_append (runs : Runs before cells) :
    tryLoop blocking (before ++ ops) i cells = tryLoop blocking ops (i + before.length) (applied before cells) := by
  induction before generalizing cells i with
  | nil => rfl
  | cons op before ih =>
    rw [cons_append, tryLoop_proceeds runs.1 runs.2.1, ih runs.2.2]
    simp only [applied_cons, length_cons, Nat.add_assoc, Nat.add_comm 1]

@[simp] theorem Sembuf.revert_apply : op.revert (op.apply cells) = cells := by
  by_cases undoes : op.undoes = true <;> simp [revert, apply, undoes]

/-- Rolling back in reverse order restores the arrays, whatever indices are repeated. -/
theorem rollback_applied : rollback (before ++ after) before.length (applied before cells) = cells := by
  rw [rollback, take_left]
  induction before generalizing cells with
  | nil => rfl
  | cons op before ih =>
    rw [reverse_cons, foldl_append, applied_cons, ih]
    exact revert_apply

theorem Cells.Ranged.apply (ranged : cells.Ranged nsems) (blocks : ¬ op.Blocks cells)
    (overflows : ¬ op.Overflows cells) : (op.apply cells).Ranged nsems := by
  intro i mem
  have within := within blocks overflows
  rw [Blocks] at blocks
  obtain ⟨_, _⟩ := ranged i mem
  by_cases eq : i = op.num
  · subst eq
    by_cases undoes : op.undoes = true
    · have adj := within.2 undoes
      simp only [Sembuf.apply, undoes, if_true, update_self]
      omega
    · simp only [Sembuf.apply, undoes, Bool.false_eq_true, if_false, update_self]
      omega
  · by_cases undoes : op.undoes = true
    · simpa only [Sembuf.apply, undoes, if_true, update_of_ne eq] using ranged i mem
    · simpa only [Sembuf.apply, undoes, Bool.false_eq_true, if_false, update_of_ne eq] using ranged i mem

theorem Cells.Ranged.applied (ranged : cells.Ranged nsems) (runs : Runs ops cells) : (applied ops cells).Ranged nsems := by
  induction ops generalizing cells with
  | nil => exact ranged
  | cons op ops ih => exact ih (ranged.apply runs.1 runs.2.1) runs.2.2

section
variable {now : Int} {request : Request} {set : SemSet} {adjustment adj : Nat → Int}

theorem requestTry_runs (runs : Runs request.ops ⟨set.value, adj⟩) : requestTry now request set adj = ⟨0, request.blocking, { set with
          value := (applied request.ops ⟨set.value, adj⟩).value
          pid := request.ops.foldl (fun (pid : Nat → Option Nat) op => update pid op.num (some request.pid)) set.pid
          otime := now },
        (applied request.ops ⟨set.value, adj⟩).adjustment⟩ := by
  have loop := @tryLoop_append [] request.ops ⟨set.value, adj⟩ request.blocking 0 runs
  rw [append_nil] at loop
  rw [requestTry, loop]
  rfl

section
variable (split : request.ops = before ++ op :: after)
include split

theorem requestTry_stops (runs : Runs before ⟨set.value, adj⟩) (nonzero : error ≠ 0)
    (stops : tryLoop request.blocking (op :: after) before.length (applied before ⟨set.value, adj⟩) =
      ⟨error, before.length, blocking, applied before ⟨set.value, adj⟩⟩) :
    requestTry now request set adj = ⟨error, blocking, set, adj⟩ := by
  have loop := @tryLoop_append (op :: after) before ⟨set.value, adj⟩ request.blocking 0 runs
  rw [Nat.zero_add, stops, ← split] at loop
  rw [requestTry, loop]
  rw [if_pos nonzero, split, rollback_applied]

/-- A request whose first obstacle is a wait changes nothing and remembers the operation. -/
theorem requestTry_blocks (runs : Runs before ⟨set.value, adj⟩) (blocks : op.Blocks (applied before ⟨set.value, adj⟩)) :
    requestTry now request set adj = ⟨if op.nowait then -kernelEAGAIN else 1, before.length, set, adj⟩ :=
  requestTry_stops split runs (by split <;> decide) (tryLoop_blocks blocks)

theorem requestTry_overflows (runs : Runs before ⟨set.value, adj⟩) (overflows : op.Overflows (applied before ⟨set.value, adj⟩)) :
    requestTry now request set adj = ⟨-kernelERANGE, request.blocking, set, adj⟩ :=
  requestTry_stops split runs (by decide) (tryLoop_overflows overflows)

end

theorem requestTry_cases (now : Int) (request : Request) (set : SemSet) (adj : Nat → Int) :
    (Runs request.ops ⟨set.value, adj⟩ ∧ (requestTry now request set adj).result = 0) ∨
    (∃ before op after, request.ops = before ++ op :: after ∧ Runs before ⟨set.value, adj⟩ ∧ op.Blocks (applied before ⟨set.value, adj⟩) ∧
      requestTry now request set adj = ⟨if op.nowait then -kernelEAGAIN else 1, before.length, set, adj⟩) ∨
    (∃ before op after, request.ops = before ++ op :: after ∧ Runs before ⟨set.value, adj⟩ ∧
      op.Overflows (applied before ⟨set.value, adj⟩) ∧
      requestTry now request set adj = ⟨-kernelERANGE, request.blocking, set, adj⟩) := by
  rcases runs_or_stops request.ops ⟨set.value, adj⟩ with runs | ⟨before, op, after, split, runs, stops⟩
  · exact .inl ⟨runs, by rw [requestTry_runs runs]⟩
  rcases stops with blocks | overflows
  · exact .inr (.inl ⟨before, op, after, split, runs, blocks, requestTry_blocks split runs blocks⟩)
  · exact .inr (.inr ⟨before, op, after, split, runs, overflows, requestTry_overflows split runs overflows⟩)

/-- A vector is applied as a whole or not at all, and the answer tells which operation it waits for. -/
theorem requestTry_atomic (ranged : Cells.Ranged ⟨set.value, adjustment⟩ set.nsems) : ((requestTry now request set adjustment).result = 0 →
      (requestTry now request set adjustment).set.value = (applied request.ops ⟨set.value, adjustment⟩).value ∧
      (requestTry now request set adjustment).adjustment = (applied request.ops ⟨set.value, adjustment⟩).adjustment ∧
      ∀ k, (applied (request.ops.take k) ⟨set.value, adjustment⟩).Ranged set.nsems) ∧
    ((requestTry now request set adjustment).result ≠ 0 → (requestTry now request set adjustment).set = set ∧
      (requestTry now request set adjustment).adjustment = adjustment) ∧
    (((requestTry now request set adjustment).result = 1 ∨ (requestTry now request set adjustment).result = -kernelEAGAIN) ↔
      ∃ before op after, request.ops = before ++ op :: after ∧ Runs before ⟨set.value, adjustment⟩ ∧
        op.Blocks (applied before ⟨set.value, adjustment⟩)) ∧
    ((requestTry now request set adjustment).result = -kernelERANGE ↔
      ∃ before op after, request.ops = before ++ op :: after ∧ Runs before ⟨set.value, adjustment⟩ ∧
        op.Overflows (applied before ⟨set.value, adjustment⟩)) := by
  refine ⟨fun granted => ?_, fun refused => ?_, ⟨fun waits => ?_, ?_⟩, ⟨fun fails => ?_, ?_⟩⟩
  · rcases requestTry_cases now request set adjustment with ⟨runs, _⟩ | ⟨_, op, _, _, _, _, done⟩ | ⟨_, _, _, _, _, _, done⟩
    · rw [requestTry_runs runs]
      refine ⟨rfl, rfl, fun k => ranged.applied ?_⟩
      rw [← take_append_drop k request.ops, runs_append] at runs
      exact runs.1
    · rw [done] at granted
      split at granted <;> cases granted
    · rw [done] at granted
      cases granted
  · rcases requestTry_cases now request set adjustment with ⟨_, zero⟩ | ⟨_, _, _, _, _, _, done⟩ | ⟨_, _, _, _, _, _, done⟩
    · exact absurd zero refused
    · rw [done]
      exact ⟨rfl, rfl⟩
    · rw [done]
      exact ⟨rfl, rfl⟩
  · rcases requestTry_cases now request set adjustment with ⟨_, zero⟩ | ⟨before, op, after, split, runs, blocks, _⟩ |
      ⟨_, _, _, _, _, _, done⟩
    · rw [zero] at waits
      exact absurd waits (by decide)
    · exact ⟨before, op, after, split, runs, blocks⟩
    · rw [done] at waits
      dsimp only at waits
      exact absurd waits (by decide)
  · rintro ⟨before, op, after, split, runs, blocks⟩
    rw [requestTry_blocks split runs blocks]
    cases op.nowait
    · exact .inl rfl
    · exact .inr rfl
  · rcases requestTry_cases now request set adjustment with ⟨_, zero⟩ | ⟨_, op, _, _, _, _, done⟩ |
      ⟨before, op, after, split, runs, overflows, _⟩
    · rw [zero] at fails
      cases fails
    · rw [done] at fails
      split at fails <;> cases fails
    · exact ⟨before, op, after, split, runs, overflows⟩
  · rintro ⟨_, _, _, split, runs, overflows⟩
    rw [requestTry_overflows split runs overflows]

end

/-- Takes two, adds three to the same member and waits for a zero: the additions are taken back. -/
theorem requestTry_atomic_repeated : (requestTry 9 ⟨1, 7, [⟨0, -2, kernelSEMUNDO⟩, ⟨0, 3, kernelSEMUNDO⟩, ⟨0, 0, 0⟩], true, some 4, 0⟩
        ⟨1, fun _ => 5, fun _ => none, 0, 0, false, [4], []⟩ fun _ => 0).result = 1 ∧
      (requestTry 9 ⟨1, 7, [⟨0, -2, kernelSEMUNDO⟩, ⟨0, 3, kernelSEMUNDO⟩, ⟨0, 0, 0⟩], true, some 4, 0⟩
        ⟨1, fun _ => 5, fun _ => none, 0, 0, false, [4], []⟩ fun _ => 0).adjustment = fun _ => 0 := by
  have waits : (requestTry 9 ⟨1, 7, [⟨0, -2, kernelSEMUNDO⟩, ⟨0, 3, kernelSEMUNDO⟩, ⟨0, 0, 0⟩], true, some 4, 0⟩
      ⟨1, fun _ => 5, fun _ => none, 0, 0, false, [4], []⟩ fun _ => 0).result = 1 := by decide
  refine ⟨waits, ((requestTry_atomic ?_).2.1 (by rw [waits]; decide)).2⟩
  intro i _
  dsimp only
  decide

end BoarOS.Sem
