import Mathlib.Data.List.Basic

namespace BoarOS.Sem
open Function (update)

/-! # System V semaphores (`kernel/sem.c`)

Sets, undo groups and undo entries are named by their allocation, which is never used twice. The arrays `members[]`
and `adjustment[]` are functions of the index; `kernel_sem_op` compares indices with `nsems` first. -/

def kernelSEMVMX : Int := 32767
def kernelSEMAEM : Int := 32767
def kernelIPCNOWAIT : UInt16 := 0x800
def kernelSEMUNDO : UInt16 := 0x1000
def kernelEINTR : Int := 4
def kernelEAGAIN : Int := 11
def kernelERANGE : Int := 34
def kernelEIDRM : Int := 43

structure Sembuf where
  semNum : UInt16
  semOp : Int16
  semFlg : UInt16
deriving DecidableEq

def Sembuf.num (op : Sembuf) : Nat := op.semNum.toNat
def Sembuf.amount (op : Sembuf) : Int := op.semOp.toInt
def Sembuf.nowait (op : Sembuf) : Bool := op.semFlg &&& kernelIPCNOWAIT ≠ 0
def Sembuf.undoes (op : Sembuf) : Bool := op.semFlg &&& kernelSEMUNDO ≠ 0

structure Request where
  task : Nat
  pid : Nat
  ops : List Sembuf
  alter : Bool
  undo : Option Nat
  blocking : Nat
deriving DecidableEq

/-- A `struct sem_set`; `undo` and `queue` are its two lists. -/
structure SemSet where
  nsems : Nat
  value : Nat → Int
  pid : Nat → Option Nat
  otime : Int
  ctime : Int
  removed : Bool
  undo : List Nat
  queue : List Request

structure Cells where
  value : Nat → Int
  adjustment : Nat → Int

structure Attempt where
  error : Int
  applied : Nat
  blocking : Nat
  cells : Cells

def tryLoop (blocking : Nat) : List Sembuf → Nat → Cells → Attempt
  | [], i, cells => ⟨0, i, blocking, cells⟩
  | op :: rest, i, cells =>
    let value := cells.value op.num + op.amount
    if (op.amount = 0 ∧ cells.value op.num ≠ 0) ∨ value < 0 then
      ⟨if op.nowait then -kernelEAGAIN else 1, i, i, cells⟩
    else if value > kernelSEMVMX then ⟨-kernelERANGE, i, blocking, cells⟩
    else if op.undoes then
      let adjustment := cells.adjustment op.num - op.amount
      if adjustment < -kernelSEMAEM - 1 ∨ adjustment > kernelSEMAEM then ⟨-kernelERANGE, i, blocking, cells⟩
      else tryLoop blocking rest (i + 1)
        ⟨update cells.value op.num value, update cells.adjustment op.num adjustment⟩
    else tryLoop blocking rest (i + 1) { cells with value := update cells.value op.num value }

def Sembuf.revert (op : Sembuf) (cells : Cells) : Cells :=
  { value := update cells.value op.num (cells.value op.num - op.amount)
    adjustment := if op.undoes then
        update cells.adjustment op.num (cells.adjustment op.num + op.amount)
      else cells.adjustment }

/-- `while (i) … ops[--i]`. -/
def rollback (ops : List Sembuf) (applied : Nat) (cells : Cells) : Cells :=
  (ops.take applied).reverse.foldl (fun cells op => op.revert cells) cells

structure Tried where
  result : Int
  blocking : Nat
  set : SemSet
  adjustment : Nat → Int

def requestTry (now : Int) (request : Request) (set : SemSet) (adjustment : Nat → Int) : Tried :=
  let attempt := tryLoop request.blocking request.ops 0 ⟨set.value, adjustment⟩
  if attempt.error ≠ 0 then
    let cells := rollback request.ops attempt.applied attempt.cells
    ⟨attempt.error, attempt.blocking, { set with value := cells.value }, cells.adjustment⟩
  else
    let pid := request.ops.foldl (fun (pid : Nat → Option Nat) op => update pid op.num (some request.pid)) set.pid
    ⟨0, attempt.blocking, { set with value := attempt.cells.value, pid := pid, otime := now }, attempt.cells.adjustment⟩

/-- The adjustments of all entries; a request without `SEM_UNDO` has no entry and touches none. -/
abbrev Adjustments := Nat → Nat → Int

def Request.adjustment (request : Request) (adjustments : Adjustments) : Nat → Int :=
  match request.undo with
  | some entry => adjustments entry
  | none => fun _ => 0

def Request.store (request : Request) (adjustments : Adjustments) (adjustment : Nat → Int) : Adjustments :=
  match request.undo with
  | some entry => update adjustments entry adjustment
  | none => adjustments

/-- The variables of `set_update`; `wake` has the newest completion first, and the queue is in the loops. -/
structure Update where
  set : SemSet
  adjustments : Adjustments
  wake : List (Request × Int)

def Update.attempt (now : Int) (request : Request) (update : Update) : Tried :=
  requestTry now request update.set (request.adjustment update.adjustments)

def Update.complete (update : Update) (request : Request) (tried : Tried) : Update :=
  { set := tried.set, adjustments := request.store update.adjustments tried.adjustment
    wake := (request, tried.result) :: update.wake }

/-- `set_update` up to the next return to the head of the queue, which the flag asks for. -/
def scan (now : Int) (passed : List Request) : List Request → Update → Bool × List Request × Update
  | [], update => (false, passed, update)
  | request :: rest, update =>
    let tried := update.attempt now request
    if tried.result = 1 then
      scan now (passed ++ [{ request with blocking := tried.blocking }]) rest
        { update with set := tried.set, adjustments := request.store update.adjustments tried.adjustment }
    else if tried.result = 0 ∧ request.alter then (true, passed ++ rest, update.complete request tried)
    else scan now passed rest (update.complete request tried)

def updateLoop (now : Int) : Nat → List Request → Update → Option Update
  | 0, _, _ => none
  | scans + 1, queue, update =>
    match scan now [] queue update with
    | (true, queue, update) => updateLoop now scans queue update
    | (false, queue, update) => some { update with set := { update.set with queue := queue } }

/-- `set_update`: each further scan follows a completion, so there is at most one more than requests. -/
def setUpdate (now : Int) (set : SemSet) (adjustments : Adjustments) (wake : List (Request × Int)) : Option Update :=
  updateLoop now (set.queue.length + 1) set.queue ⟨set, adjustments, wake⟩

end BoarOS.Sem
