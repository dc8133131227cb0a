import BoarOS.Vma.Properties
import Mathlib.Algebra.BigOperators.Intervals

namespace BoarOS.Vma
open Data UInt64 Finset KernelVma

/-! # The prefix that `mprotect` changes

`prepare_mprotect` commits what it has admitted before the first address that it cannot. `MustStop` says where that
is, `protectedView` how the map changes and `dataTotal` what counts against the data limit. -/

variable {shown : UInt64 → Option View} {es : List KernelVma} {vma : KernelVma}
  {perms : BitVec 32} {addr start stop cur fin : UInt64}

abbrev Within (low high address : UInt64) : Prop := low.toNat ≤ address.toNat ∧ address.toNat < high.toNat

def View.isData (view : View) : Bool :=
  view.permissions &&& writePermission ≠ 0 && (view.role ≠ .stack &&
    (view.kind = .anonymous || view.kind = .filePrivate || view.kind = .elfPrivate))

def protectedView (permissions : BitVec 32) (start stop : UInt64) (shown : UInt64 → Option View) (address : UInt64) : Option View :=
  if start ≤ address ∧ address < stop then (shown address).map fun view => { view with permissions }
  else shown address

@[irreducible] def lastAddress : Nat := uint64Max.toNat

def dataTotal (shown : UInt64 → Option View) : Nat :=
  ∑ n ∈ Finset.Ico 0 lastAddress, if (shown (.ofNat n)).any View.isData then 1 else 0

namespace KernelVmaSet

/-- The walk cannot admit the address: it is unmapped, its entry forbids the permissions, or making the entry's part
of the range private data passes the data limit and not only that of the address space. -/
def MustStop (set : KernelVmaSet) (limits : KernelMemoryLimits) (start stop : UInt64) (permissions : BitVec 32) (address : UInt64) : Prop :=
  match set.live.find? (·.covers address) with
  | none => True
  | some vma =>
    let first := if vma.start < start then start else vma.start
    let finish := if vma.stop < stop then vma.stop else stop
    permissions &&& ~~~vma.maximumPermissions ≠ 0 ∨ (dataCounted vma permissions ∧ permissions &&& writePermission ≠ 0 ∧
        dataRefused limits set.totalBytes (dataTotal (protectedView permissions start first (viewAt set.live))) (finish - first).toNat)

/-- `mm_mprotect_impl` from the prepare on, without the page tables and the TLB. -/
def mprotect [PageGeometry] (set : KernelVmaSet) (limits : KernelMemoryLimits) (start stop : UInt64)
    (permissions : BitVec 32) (world : World) (edit : KernelVmaEdit) :
    Except Trap (Status × KernelVmaSet × World) :=
  let (status, prepared, world, edit) := set.prepareMprotect limits start stop permissions world edit
  if edit.set = none then .ok (status, prepared, world)
  else
    match prepared.commitEdit edit world with
    | .error fault => .error fault
    | .ok (committed, result, world) => .ok (if committed ≠ .ok then .state else status, result, world)

end KernelVmaSet

section
variable (covered : ∀ addr, Within cur fin addr → shown addr = some (vma.view addr))
  (above : start.toNat ≤ cur.toNat) (ord : cur.toNat ≤ fin.toNat)

include covered above ord

end

namespace KernelVmaSet
variable {set grown : KernelVmaSet} {limits : KernelMemoryLimits} {index firstSplit data total : Nat}
  {edit fresh : KernelVmaEdit} {w : World} {st : Status}

theorem find_entry (lay : Layout set.live) (lt : index < set.count) (covers : (set.entries index).covers addr = true) :
    set.live.find? (·.covers addr) = some (set.entries index) := by
  obtain ⟨pre, _, split, _⟩ := live_at lt
  have across := (Layout.append_iff.mp (split ▸ lay)).2.2
  have none : pre.find? (·.covers addr) = none := List.find?_eq_none.mpr fun earlier mem wrong => by
    have := across earlier mem _ (.head _)
    have := covers_iff.mp wrong
    have := covers_iff.mp covers
    omega
  rw [split, List.find?_append, none, Option.none_or, List.find?_cons, covers]

theorem mprotectAdmit_ok (ok : mprotectAdmit perms vma cur fin firstSplit set w edit = (.ok, reserved, next, fresh, nextSplit)) :
    Grown set reserved ∧ fresh.set ≠ none ∧ fresh.stop = fin ∧ fresh.start = if edit.set = none then cur else edit.start := by
  unfold mprotectAdmit at ok
  split at ok
  · cases ok
  generalize (if fin < vma.stop then 1 else 0) = endSplit at ok
  generalize (if edit.set = none then if vma.start < cur then 1 else 0 else firstSplit) = startSplit at ok
  simp only at ok
  split at ok
  · split at ok
    · cases ok
    have res := reserveEntries_spec set (set.count + (startSplit + endSplit)) w
    generalize set.reserveEntries (set.count + (startSplit + endSplit)) w = out at res ok
    obtain ⟨st, _⟩ := out
    cases st with
    | ok =>
      cases ok
      by_cases unset : edit.set = none
      · simp only [if_pos unset]
        exact ⟨res.contents, nofun, trivial, rfl⟩
      · simp only [if_neg unset]
        exact ⟨res.contents, unset, trivial, trivial⟩
    | _ => cases ok
  next unreserved =>
    rw [not_or] at unreserved
    cases ok
    exact ⟨Grown.refl _, unreserved.1, rfl, (if_neg unreserved.1).symm⟩

/-- What the walk knows at `cursor`: every address before it can be admitted, and
those outside the edit have the permissions already. -/
structure Tracking (set : KernelVmaSet) (limits : KernelMemoryLimits) (start stop : UInt64) (perms : BitVec 32)
    (index : Nat) (cursor : UInt64) (data : Nat) (edit : KernelVmaEdit) : Prop where
  above : start.toNat ≤ cursor.toNat
  below : cursor.toNat ≤ stop.toNat
  passed : ∀ addr, Within start cursor addr → ¬ set.MustStop limits start stop perms addr
  behind : cursor ≠ stop → ∀ cell, cell < index → (set.entries cell).stop.toNat ≤ cursor.toNat
  ahead : ∀ cell, index ≤ cell → cell < set.count → cursor.toNat < (set.entries cell).stop.toNat
  edge : cursor ≠ start → ∀ cell, index ≤ cell → cell < set.count → cursor.toNat ≤ (set.entries cell).start.toNat
  settled : ∀ addr, Within start cursor addr → (edit.set ≠ none → ¬ Within edit.start edit.stop addr) →
    ∃ view, viewAt set.live addr = some view ∧ view.permissions = perms
  within : edit.set ≠ none → start.toNat ≤ edit.start.toNat ∧ edit.start.toNat ≤ cursor.toNat ∧ edit.stop.toNat ≤ cursor.toNat
  total : data = dataTotal (protectedView perms start cursor (viewAt set.live))

/-- The walk ends at the end of the range or at the first address it cannot admit. -/
def Ended (set : KernelVmaSet) (limits : KernelMemoryLimits) (start stop : UInt64) (perms : BitVec 32)
    (data : Nat) (status : Status) (edit : KernelVmaEdit) : Prop :=
  ∃ last fin, Tracking set limits start stop perms last fin data edit ∧ (status = .ok ↔ fin = stop) ∧
    (fin ≠ stop → set.MustStop limits start stop perms fin)

section
variable (walk : Tracking set limits start stop perms index cur data edit)
include walk

theorem Tracking.finished (reached : ¬ cur < stop) : Ended set limits start stop perms data .ok edit := by
  have below := walk.below
  rw [lt_iff_toNat_lt] at reached
  have eq : cur = stop := UInt64.toNat_inj.mp (by omega)
  exact ⟨index, cur, walk, by simp [eq], fun ne => absurd eq ne⟩

theorem Tracking.stopped (unfinished : cur < stop) (failed : st ≠ .ok)
    (must : set.MustStop limits start stop perms cur) : Ended set limits start stop perms data st edit := by
  have ne : cur ≠ stop := fun eq => UInt64.lt_irrefl _ (eq ▸ unfinished)
  exact ⟨index, cur, walk, by simp [failed, ne], fun _ => must⟩

/-- Outside the edit nothing behind the cursor is left to change. -/
theorem Tracking.unchanged (out : edit.set ≠ none → ¬ Within edit.start edit.stop addr) :
    protectedView perms start cur (viewAt set.live) addr = viewAt set.live addr := by
  rw [protectedView]
  split
  next mem =>
    obtain ⟨_, shows, same⟩ := walk.settled addr mem out
    rw [shows, ← same]
    rfl
  · rfl

variable (lay : Layout set.live) (lt : index < set.count) (low : (set.entries index).start.toNat ≤ cur.toNat)
include lay lt low

/-- Over the rest of the entry, the walk may go on exactly if it may at the cursor. -/
theorem Tracking.mustStop_iff (mem : cur.toNat ≤ addr.toNat) (high : addr.toNat < (set.entries index).stop.toNat) :
    set.MustStop limits start stop perms addr ↔ perms &&& ~~~(set.entries index).maximumPermissions ≠ 0 ∨
      (dataCounted (set.entries index) perms ∧ perms &&& writePermission ≠ 0 ∧ dataRefused limits set.totalBytes data
          ((if (set.entries index).stop < stop then (set.entries index).stop else stop) - cur).toNat) := by
  have first : (if (set.entries index).start < start then start else (set.entries index).start) = cur := by
    have above := walk.above
    by_cases eq : cur = start
    · rw [eq] at low ⊢
      split
      · rfl
      next ord =>
        rw [lt_iff_toNat_lt] at ord
        exact UInt64.toNat_inj.mp (by omega)
    · have := walk.edge eq index le_rfl lt
      have at_ : (set.entries index).start = cur := UInt64.toNat_inj.mp (by omega)
      rw [at_, if_neg (by rw [lt_iff_toNat_lt]; omega)]
  unfold MustStop
  rw [find_entry lay lt (covers_iff.mpr ⟨by omega, high⟩)]
  simp only [first, walk.total]

variable (unfinished : cur.toNat < stop.toNat)
  (reach : (if (set.entries index).stop < stop then (set.entries index).stop else stop) = fin)
  (goes : ¬ set.MustStop limits start stop perms cur)

include unfinished reach goes

theorem Tracking.advance (fresh : KernelVmaEdit)
    (range : ∀ addr : UInt64, addr.toNat < fin.toNat → (fresh.set ≠ none → ¬ Within fresh.start fresh.stop addr) →
      cur.toNat ≤ addr.toNat ∧ (set.entries index).permissions = perms ∨
      addr.toNat < cur.toNat ∧ (edit.set ≠ none → ¬ Within edit.start edit.stop addr))
    (within : fresh.set ≠ none → start.toNat ≤ fresh.start.toNat ∧ fresh.start.toNat ≤ fin.toNat ∧ fresh.stop.toNat ≤ fin.toNat) :
    Tracking set limits start stop perms (index + 1) fin (dataTotal (protectedView perms start fin (viewAt set.live))) fresh := by
  have above := walk.above
  have past := walk.ahead index le_rfl lt
  have bounds : cur.toNat < fin.toNat ∧ fin.toNat ≤ stop.toNat ∧
      fin.toNat ≤ (set.entries index).stop.toNat ∧ (fin ≠ stop → fin = (set.entries index).stop) := by
    rw [← reach]
    split <;> rename_i shorter <;> rw [lt_iff_toNat_lt] at shorter
    · exact ⟨past, by omega, le_rfl, fun _ => rfl⟩
    · exact ⟨unfinished, le_rfl, by omega, fun wrong => absurd rfl wrong⟩
  have later : ∀ cell, index + 1 ≤ cell → cell < set.count →
      (set.entries index).stop.toNat ≤ (set.entries cell).start.toNat := fun cell next inside =>
    entries_apart lay (by omega) inside
  refine ⟨by omega, bounds.2.1, fun addr ⟨lo, upper⟩ => ?_, fun short cell old => ?_, fun cell next inside => ?_,
    fun _ cell next inside => ?_, fun addr ⟨lo, upper⟩ out => ?_, within, rfl⟩
  · by_cases mem : cur.toNat ≤ addr.toNat
    · rw [walk.mustStop_iff lay lt low mem (by omega)]
      rwa [walk.mustStop_iff lay lt low le_rfl past] at goes
    · exact walk.passed addr ⟨lo, by omega⟩
  · rw [bounds.2.2.2 short]
    rcases Nat.lt_succ_iff_lt_or_eq.mp old with earlier | rfl
    · have := entries_apart lay earlier lt
      omega
    · exact le_rfl
  · have := later cell next inside
    have := (lay.sound _ (entry_mem inside)).nonempty
    omega
  · have := later cell next inside
    omega
  · rcases range addr upper out with ⟨_, eq⟩ | ⟨old, outside⟩
    · have covers : (set.entries index).covers addr = true := covers_iff.mpr ⟨by omega, by omega⟩
      exact ⟨_, by rw [viewAt, find_entry lay lt covers]; rfl, eq⟩
    · exact walk.settled addr ⟨lo, old⟩ outside

theorem Tracking.skip (same : (set.entries index).permissions = perms) : Tracking set limits start stop perms (index + 1) fin
      (dataTotal (protectedView perms start fin (viewAt set.live))) edit := by
  have past := walk.ahead index le_rfl lt
  refine walk.advance lay lt low unfinished reach goes edit (fun addr _ out => ?_) fun begun => ?_
  · by_cases mem : cur.toNat ≤ addr.toNat
    · exact .inl ⟨mem, same⟩
    · exact .inr ⟨by omega, out⟩
  have within := walk.within begun
  have : cur.toNat ≤ fin.toNat := by
    rw [← reach]
    split <;> omega
  omega

theorem Tracking.admit (ok : mprotectAdmit perms vma cur fin firstSplit grown w edit = (.ok, reserved, next, fresh, nextSplit)) :
    Tracking set limits start stop perms (index + 1) fin (dataTotal (protectedView perms start fin (viewAt set.live))) fresh := by
  obtain ⟨_, begun, stopEq, startEq⟩ := mprotectAdmit_ok ok
  have above := walk.above
  have past := walk.ahead index le_rfl lt
  have further : cur.toNat ≤ fin.toNat := by
    rw [← reach]
    split <;> omega
  have begins : start.toNat ≤ fresh.start.toNat ∧ fresh.start.toNat ≤ cur.toNat ∧
      ∀ addr : UInt64, addr.toNat < fresh.start.toNat → edit.set ≠ none → addr.toNat < edit.start.toNat := by
    by_cases unset : edit.set = none
    · rw [startEq, if_pos unset]
      exact ⟨above, le_rfl, fun _ _ set => absurd unset set⟩
    have := walk.within unset
    rw [startEq, if_neg unset]
    exact ⟨this.1, this.2.1, fun _ before _ => before⟩
  refine walk.advance lay lt low unfinished reach goes fresh (fun addr upper out => ?_) fun _ => ?_
  · have out := out begun
    rw [stopEq] at out
    exact .inr ⟨by omega, fun set => by have := begins.2.2 addr (by omega) set; omega⟩
  · rw [stopEq]
    omega

end

end KernelVmaSet

open KernelVmaSet

end BoarOS.Vma
