import BoarOS.Vma.Insertion
import BoarOS.Vma.Operations

namespace BoarOS.Vma
open Data UInt64 KernelVma

/-! The set seen as a partial map from addresses to mapping attributes. -/

/-- What one mapped address shows; `offset` is the position in the backing
object, which anonymous memory does not have. -/
structure View where
  permissions : BitVec 32
  maximumPermissions : BitVec 32
  kind : Kind
  role : Role
  faultPolicy : FaultPolicy
  flags : BitVec 32
  backing : Nat
  shmAttachment : Nat
  offset : Option Nat
deriving DecidableEq, Repr

variable {es res pre after : List KernelVma} {left right vma : KernelVma}
  {addr other : UInt64}

namespace KernelVma

def covers (vma : KernelVma) (address : UInt64) : Bool :=
  vma.start ≤ address && address < vma.stop

def offsetAt (vma : KernelVma) (address : UInt64) : Option Nat :=
  if vma.kind = .anonymous then none
  else some (vma.backingOffset.toNat + (address.toNat - vma.start.toNat))

theorem offsetAt_anonymous (anonymous : vma.kind = .anonymous) : vma.offsetAt addr = none := if_pos anonymous

theorem offsetAt_backed (backed : vma.kind ≠ .anonymous) : vma.offsetAt addr =
    some (vma.backingOffset.toNat + (addr.toNat - vma.start.toNat)) :=
  if_neg backed

def view (vma : KernelVma) (address : UInt64) : View where
  permissions := vma.permissions
  maximumPermissions := vma.maximumPermissions
  kind := vma.kind
  role := vma.role
  faultPolicy := vma.faultPolicy
  flags := vma.flags
  backing := vma.backing
  shmAttachment := vma.shmAttachment
  offset := vma.offsetAt address

theorem covers_iff : vma.covers addr = true ↔ vma.start.toNat ≤ addr.toNat ∧ addr.toNat < vma.stop.toNat := by
  simp [covers, Bool.and_eq_true, decide_eq_true_eq, le_iff_toNat_le, lt_iff_toNat_lt]

theorem covers_false_iff : vma.covers addr = false ↔ ¬ (vma.start.toNat ≤ addr.toNat ∧ addr.toNat < vma.stop.toNat) := by
  rw [← covers_iff, Bool.not_eq_true]

theorem join_covers (addr : UInt64) (soundL : left.Sound) (soundR : right.Sound) (joins : left.Mergeable right) :
    (left.join right).covers addr = (left.covers addr || right.covers addr) := by
  have touching : left.stop.toNat = right.start.toNat := by rw [joins.adjacent]
  have leftOrder := soundL.nonempty
  have rightOrder := soundR.nonempty
  rw [Bool.eq_iff_iff, Bool.or_eq_true, covers_iff, covers_iff, covers_iff, join_start, join_stop]
  omega

theorem join_view_right (soundL : left.Sound) (joins : left.Mergeable right) (inside : right.covers addr = true) :
    (left.join right).view addr = right.view addr := by
  have touching : left.stop.toNat = right.start.toNat := by rw [joins.adjacent]
  have leftOrder := soundL.nonempty
  obtain ⟨_, _⟩ := covers_iff.mp inside
  simp only [view, View.mk.injEq]
  refine ⟨joins.permissions, joins.maximumPermissions, joins.kind, joins.role,
    joins.faultPolicy, joins.flags, joins.backing, joins.shmAttachment, ?_⟩
  change left.offsetAt addr = right.offsetAt addr
  by_cases anonymous : left.kind = .anonymous
  · rw [offsetAt_anonymous anonymous, offsetAt_anonymous (joins.kind ▸ anonymous)]
  have offset := joins.offset_toNat leftOrder anonymous
  rw [offsetAt_backed anonymous, offsetAt_backed (joins.kind ▸ anonymous), Option.some.injEq]
  omega

theorem tailFrom_view (sound : vma.Sound) (lo : vma.start.toNat ≤ addr.toNat) (upper : addr.toNat ≤ vma.stop.toNat)
    (le : addr.toNat ≤ other.toNat) : (vma.tailFrom addr).view other = vma.view other := by
  simp only [view, View.mk.injEq]
  refine ⟨rfl, rfl, rfl, rfl, rfl, rfl, rfl, rfl, ?_⟩
  have kind : (vma.tailFrom addr).kind = vma.kind := rfl
  by_cases anonymous : vma.kind = .anonymous
  · rw [offsetAt_anonymous anonymous, offsetAt_anonymous (kind.trans anonymous)]
  rw [offsetAt_backed anonymous, offsetAt_backed (kind ▸ anonymous),
    tailFrom_offset_toNat sound anonymous lo upper, tailFrom_start, Option.some.injEq]
  omega

end KernelVma

def viewAt (entries : List KernelVma) (address : UInt64) : Option View :=
  (entries.find? (·.covers address)).map (·.view address)

@[simp] theorem viewAt_nil : viewAt [] addr = none := rfl

theorem viewAt_cons : viewAt (vma :: es) addr = if vma.covers addr then some (vma.view addr) else viewAt es addr := by
  unfold viewAt
  rw [List.find?_cons]
  cases vma.covers addr <;> rfl

theorem viewAt_append : viewAt (pre ++ after) addr = (viewAt pre addr).or (viewAt after addr) := by
  unfold viewAt
  rw [List.find?_append]
  cases pre.find? (·.covers addr) <;> rfl

theorem viewAt_eq_none : viewAt es addr = none ↔ ∀ vma ∈ es, vma.covers addr = false := by
  simp [viewAt]

theorem viewAt_isSome : (viewAt es addr).isSome = true ↔ ∃ vma ∈ es, vma.covers addr = true := by
  simp [viewAt]

theorem viewAt_join (laid : Layout (pre ++ left :: right :: after)) (joins : left.Mergeable right) :
    viewAt (pre ++ left.join right :: after) addr = viewAt (pre ++ left :: right :: after) addr := by
  have soundL := laid.sound left (by simp)
  have soundR := laid.sound right (by simp)
  have whole := join_covers addr soundL soundR joins
  simp only [viewAt_append, viewAt_cons, whole]
  cases inLeft : left.covers addr with
  | true => rfl
  | false =>
    cases inRight : right.covers addr with
    | true => simp only [Bool.or_true, if_true, join_view_right soundL joins inRight]; rfl
    | false => rfl

theorem Joined.viewAt (join : Joined es res) (lay : Layout es) : viewAt res = viewAt es :=
  join.measure Vma.viewAt (fun _ _ _ _ laid joins => funext fun _ => viewAt_join laid joins) lay

theorem Cut.viewAt (cut : Cut addr es res) (laid : Layout es) : viewAt res = viewAt es := by
  cases cut with
  | outside => rfl
  | inside lo upper =>
    rename_i pre after vma
    have sound := laid.sound vma (by simp)
    rw [lt_iff_toNat_lt] at lo upper
    funext other
    have whole : vma.covers other = ((vma.headTo addr).covers other || (vma.tailFrom addr).covers other) := by
      rw [Bool.eq_iff_iff, Bool.or_eq_true, covers_iff, covers_iff, covers_iff]
      simp only [headTo_start, headTo_stop, tailFrom_start, tailFrom_stop]
      omega
    simp only [viewAt_append, viewAt_cons, whole]
    cases inHead : (vma.headTo addr).covers other with
    | true => rfl
    | false =>
      cases inTail : (vma.tailFrom addr).covers other with
      | true =>
        obtain ⟨mem, _⟩ := covers_iff.mp inTail
        have eq := tailFrom_view sound (le_of_lt lo) (le_of_lt upper) mem
        simp only [eq]
        rfl
      | false => rfl

theorem viewAt_below (out : ∀ vma ∈ es, vma.stop.toNat ≤ addr.toNat) : viewAt es addr = none := by
  refine viewAt_eq_none.mpr fun vma mem => covers_false_iff.mpr ?_
  have := out vma mem
  omega

theorem viewAt_above (out : ∀ vma ∈ es, addr.toNat < vma.start.toNat) : viewAt es addr = none := by
  refine viewAt_eq_none.mpr fun vma mem => covers_false_iff.mpr ?_
  have := out vma mem
  omega

theorem viewAt_map (start : ∀ vma, (change vma).start = vma.start) (stop : ∀ vma, (change vma).stop = vma.stop)
    (view : ∀ vma addr, (change vma).view addr = shown (vma.view addr)) : viewAt (es.map change) addr = (viewAt es addr).map shown := by
  induction es with
  | nil => rfl
  | cons vma rest ih =>
    have eq : (change vma).covers addr = vma.covers addr := by
      simp [covers, start, stop]
    rw [List.map_cons, viewAt_cons, viewAt_cons, ih, eq, view]
    split <;> rfl

theorem KernelVmaSet.lookup_spec {set : KernelVmaSet} (valid : set.valid = true) (laid : Layout set.live)
    (addr : UInt64) : (viewAt set.live addr = none ∧ set.lookup addr = (.notFound, none)) ∨
      ∃ vma ∈ set.live, vma.covers addr = true ∧ set.lookup addr = (.ok, some vma) ∧ viewAt set.live addr = some (vma.view addr) := by
  unfold lookup
  rw [valid]
  rcases search_cases laid addr with ⟨none, above⟩ | ⟨pre, vma, after, split, i, started, lo, above⟩
  · refine .inl ⟨viewAt_eq_none.mpr fun vma member =>
      covers_false_iff.mpr (above vma member).2, ?_⟩
    simp [none]
  have entry := live_entry split
  have later : viewAt after addr = none := viewAt_eq_none.mpr fun b member => covers_false_iff.mpr (above b member).2
  have old : viewAt pre addr = none := viewAt_below fun a member => le_trans (lo a member) started
  have mapped : viewAt set.live addr = if vma.covers addr then some (vma.view addr) else none := by
    rw [split, viewAt_append, viewAt_cons, old, later]
    rfl
  simp only [i, Nat.add_sub_cancel, entry, Bool.not_true, Bool.false_eq_true, if_false]
  cases mem : vma.covers addr with
  | true =>
    have upper := (covers_iff.mp mem).2
    refine .inr ⟨vma, by simp [split], mem, ?_, by rw [mapped, mem]; rfl⟩
    rw [if_neg (by rw [le_iff_toNat_le]; omega)]
  | false =>
    have upper := covers_false_iff.mp mem
    refine .inl ⟨by rw [mapped, mem]; rfl, ?_⟩
    rw [if_pos (by rw [le_iff_toNat_le]; omega)]

end BoarOS.Vma
