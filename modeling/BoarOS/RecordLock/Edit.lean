import BoarOS.RecordLock.Tree

namespace BoarOS.RecordLock
open Data List

/-! # The range an edit covers and what it leaves of the owner's locks -/

variable {State Owner : Type}
variable {s : State} {spares : List UInt64}

/-- Two locks of one owner do not overlap, nor adjoin when their types are equal. -/
def Apart (a b : Lock State Owner) : Prop :=
  (a.stop < b.start ∨ b.stop < a.start) ∧ (a.type = b.type → a.stop + 1 < b.start ∨ b.stop + 1 < a.start)

theorem Apart.symm (apart : Apart a b) : Apart b a := ⟨apart.1.symm, fun eq => (apart.2 eq.symm).symm⟩

instance : Std.Symm (@Apart State Owner) := ⟨fun _ _ apart => apart.symm⟩

theorem Apart.follows (apart : Apart a b) (bValid : b.Valid)
    (ord : a.start ≤ b.start) : a.stop < b.start ∧ (a.type = b.type → a.stop + 1 < b.start) := by
  have bRange := bValid.start_le
  refine ⟨by have := apart.1; omega, fun eq => ?_⟩
  have := apart.2 eq
  omega

theorem Apart.within (apart : Apart a b) (cIn : a.start ≤ c.start ∧ c.stop ≤ a.stop)
    (dIn : b.start ≤ d.start ∧ d.stop ≤ b.stop) (cType : c.type = a.type) (dType : d.type = b.type) : Apart c d := by
  refine ⟨by have := apart.1; omega, fun eq => ?_⟩
  have := apart.2 (by rw [← cType, ← dType, eq])
  omega

theorem ownerRemove_perm {lock : Lock State Owner} {head rest : List (Lock State Owner)} (perm : head.Perm (lock :: rest))
    (distinct : ((lock :: rest).map Lock.address).Nodup) : ∃ s', ownerRemove head lock = some s' ∧ s'.Perm rest := by
  have link : head.any (fun node => node.address == lock.address) = true := any_eq_true.mpr ⟨lock, perm.mem_iff.mpr mem_cons_self, by simp⟩
  have unique : head.Pairwise fun a b : Lock State Owner =>
      (a.address == lock.address) = true → (b.address == lock.address) = true → False := by
    have nodup := (perm.map Lock.address).nodup_iff.mpr distinct
    refine (pairwise_map.mp nodup).imp fun ne first snd => ne ?_
    rw [beq_iff_eq.mp first, beq_iff_eq.mp snd]
  refine ⟨_, by rw [ownerRemove, if_pos link], ?_⟩
  have erased := perm.eraseP _ unique
  rwa [eraseP_cons_of_pos (by simp)] at erased

structure PieceOf (state : State) (start stop : Int) (old piece : Lock State Owner) : Prop where
  state_eq : piece.state = state
  owner_eq : piece.owner = old.owner
  kind_eq : piece.kind = old.kind
  type_eq : piece.type = old.type
  within : old.start ≤ piece.start ∧ piece.stop ≤ old.stop
  nonempty : piece.start ≤ piece.stop
  outside : piece.stop < start ∨ stop < piece.start

theorem pieces_apart {start stop : Int} {olds parts pieces : List (Lock State Owner)} {old : Lock State Owner}
    (partOf : ∀ part ∈ parts, PieceOf s start stop old part) (partsApart : parts.Pairwise Apart)
    (piece : ∀ piece ∈ pieces, ∃ old ∈ olds, PieceOf s start stop old piece) (apart : olds.Pairwise Apart → pieces.Pairwise Apart)
    (oldsApart : (old :: olds).Pairwise Apart) : (parts ++ pieces).Pairwise Apart := by
  obtain ⟨first, rest⟩ := pairwise_cons.mp oldsApart
  refine pairwise_append.mpr ⟨partsApart, apart rest, fun a aIn b bIn => ?_⟩
  obtain ⟨k, otherIn, isPiece⟩ := piece b bIn
  have isPart := partOf a aIn
  exact (first k otherIn).within isPart.within isPiece.within isPart.type_eq isPiece.type_eq

section
variable [DecidableEq Owner] (owner : Owner) (kind : UInt8)

def splits (start stop : Int) (lock : Lock State Owner) : Bool :=
  owned owner kind lock && (lock.start < start && lock.stop > stop)

/-- What the walk has established about the locks it has seen. -/
structure Edit.Widened (type : LockType) (start stop : Int) (base : Nat) (seen : List (Lock State Owner))
    (edit : Edit) : Prop where
  start_le : edit.start ≤ start
  le_stop : stop ≤ edit.stop
  covered : ∀ offset, edit.start ≤ offset → offset ≤ edit.stop → (start ≤ offset ∧ offset ≤ stop) ∨
    ∃ lock ∈ seen, owned owner kind lock = true ∧ lock.type = type ∧ lock.start ≤ offset ∧ offset ≤ lock.stop
  clear : type ≠ .unlock → ∀ lock ∈ seen, owned owner kind lock = true → lock.type = type →
    (edit.start ≤ lock.start ∧ lock.stop ≤ edit.stop) ∨ lock.stop + 1 < edit.start ∨ edit.stop + 1 < lock.start
  needed_eq : edit.needed = base + (seen.filter (splits owner kind edit.start edit.stop)).length

variable {owner kind} {type : LockType} {start stop : Int} {base : Nat} {edit : Edit}
  {seen : List (Lock State Owner)} {lock : Lock State Owner}

theorem splits_iff : splits owner kind start stop lock = true ↔ owned owner kind lock = true ∧ lock.start < start ∧ stop < lock.stop := by
  simp [splits]

section
variable (wide : edit.Widened owner kind type start stop base seen)
include wide

theorem Edit.Widened.pass (whole : splits owner kind edit.start edit.stop lock = false)
    (clearHere : type ≠ .unlock → owned owner kind lock = true → lock.type = type →
      lock.stop + 1 < edit.start ∨ edit.stop + 1 < lock.start) : edit.Widened owner kind type start stop base (seen ++ [lock]) := by
  refine ⟨wide.start_le, wide.le_stop, ?_, ?_, ?_⟩
  · intro offset low high
    refine (wide.covered offset low high).imp_right fun ⟨k, mem, rest⟩ => ?_
    exact ⟨k, mem_append_left _ mem, rest⟩
  · intro locking k mem mine eq
    rcases mem_append.mp mem with old | here
    · exact wide.clear locking k old mine eq
    rw [mem_singleton.mp here] at mine eq ⊢
    exact .inr (clearHere locking mine eq)
  · rw [wide.needed_eq, List.filter_append, filter_cons, if_neg (by simp [whole]), filter_nil, append_nil]

theorem Edit.Widened.cut (mine : owned owner kind lock = true) (inner : lock.start < edit.start ∧ lock.stop > edit.stop)
    (other : lock.type = type → type = .unlock) :
    Edit.Widened owner kind type start stop base (seen ++ [lock]) { edit with needed := edit.needed + 1 } := by
  refine ⟨wide.start_le, wide.le_stop, ?_, ?_, ?_⟩
  · intro offset low high
    refine (wide.covered offset low high).imp_right fun ⟨other, mem, rest⟩ => ?_
    exact ⟨other, mem_append_left _ mem, rest⟩
  · intro locking got mem foundMine eq
    rcases mem_append.mp mem with old | here
    · exact wide.clear locking got old foundMine eq
    rw [mem_singleton.mp here] at eq
    exact absurd (other eq) locking
  · have cut : splits owner kind edit.start edit.stop lock = true := splits_iff.mpr ⟨mine, inner⟩
    rw [wide.needed_eq, List.filter_append, filter_cons, if_pos cut, filter_nil, length_append, length_singleton, add_assoc]

theorem Edit.Widened.merge (mine : owned owner kind lock = true)
    (eq : lock.type = type) (near : lock.start ≤ edit.stop + 1 ∧ edit.start ≤ lock.stop + 1)
    (behind : ∀ k ∈ seen, owned owner kind k = true → k.start ≤ k.stop ∧ k.stop < lock.start ∧
        (k.type = lock.type → k.stop + 1 < lock.start)) :
    Edit.Widened owner kind type start stop base (seen ++ [lock]) { edit with
        start := if lock.start < edit.start then lock.start else edit.start
        stop := if lock.stop > edit.stop then lock.stop else edit.stop } := by
  have startMin : (if lock.start < edit.start then lock.start else edit.start) = min lock.start edit.start := by
    split <;> omega
  have stopMax : (if lock.stop > edit.stop then lock.stop else edit.stop) = max lock.stop edit.stop := by
    split <;> omega
  rw [startMin, stopMax]
  refine ⟨?_, ?_, ?_, ?_, ?_⟩
  · have := wide.start_le
    dsimp only
    omega
  · have := wide.le_stop
    dsimp only
    omega
  · intro offset low high
    dsimp only at low high
    by_cases onLock : lock.start ≤ offset ∧ offset ≤ lock.stop
    · exact .inr ⟨lock, mem_append_right _ (mem_singleton.mpr rfl), mine, eq, onLock⟩
    refine (wide.covered offset (by omega) (by omega)).imp_right fun ⟨k, mem, rest⟩ => ?_
    exact ⟨k, mem_append_left _ mem, rest⟩
  · intro locking k mem otherMine otherSame
    rcases mem_append.mp mem with old | here
    · have ord := behind k old otherMine
      have gap := ord.2.2 (otherSame.trans eq.symm)
      have := wide.clear locking k old otherMine otherSame
      dsimp only
      omega
    · rw [mem_singleton.mp here]
      dsimp only
      omega
  · have unsplit : ∀ low high, low ≤ edit.start → edit.stop ≤ high → seen.filter (splits owner kind low high) = [] := by
      intro low high lowLe leHigh
      refine filter_eq_nil_iff.mpr fun k mem cut => ?_
      obtain ⟨otherMine, _⟩ := splits_iff.mp cut
      have := behind k mem otherMine
      omega
    have whole : splits owner kind (min lock.start edit.start) (max lock.stop edit.stop) lock = false := by
      rw [Bool.eq_false_iff, ne_eq, splits_iff]
      omega
    rw [wide.needed_eq, List.filter_append, unsplit _ _ (Int.le_refl _) (Int.le_refl _),
      unsplit _ _ (Int.min_le_right _ _) (Int.le_max_right _ _), filter_cons, if_neg (by simp [whole])]
    rfl

theorem Edit.Widened.visit (le : edit.start ≤ edit.stop) (valid : lock.Valid) (bounded : edit.stop ≤ int64Max)
    (behind : ∀ other ∈ seen, owned owner kind other = true → owned owner kind lock = true →
      other.start ≤ other.stop ∧ other.stop < lock.start ∧ (other.type = lock.type → other.stop + 1 < lock.start)) :
    (edit.visit owner kind type lock).Widened owner kind type start stop base (seen ++ [lock]) := by
  have startLe := valid.start_le
  have stopLe := valid.stop_le
  rw [Edit.visit]
  split
  next mine =>
    rw [← owned_iff] at mine
    split
    next meets =>
      obtain ⟨-, eq, meets⟩ := meets
      simp only [touching_iff, adjacent, Bool.or_eq_true, Bool.and_eq_true, beq_iff_eq] at meets
      exact wide.merge mine eq (by omega) fun other mem otherMine =>
        behind other mem otherMine mine
    rename_i unmet
    simp only [touching_iff, adjacent, Bool.or_eq_true, Bool.and_eq_true, bne_iff_ne, beq_iff_eq] at unmet
    split
    next inner =>
      refine wide.cut mine inner fun eq => ?_
      by_contra locking
      exact unmet ⟨locking, eq, by omega⟩
    rename_i whole
    refine wide.pass ?_ fun locking _ eq => ?_
    · rw [Bool.eq_false_iff, ne_eq, splits_iff]
      exact fun cut => whole cut.2
    · simp only [locking, eq, ne_eq, not_false_eq_true, true_and] at unmet
      omega
  next other =>
    rw [← owned_iff] at other
    exact wide.pass (by rw [Bool.eq_false_iff, ne_eq, splits_iff]; exact fun cut => other cut.1) fun _ mine => absurd mine other

end

theorem Edit.visit_bounded (valid : lock.Valid) (le : edit.stop ≤ int64Max) : (edit.visit owner kind type lock).stop ≤ int64Max := by
  have stopLe := valid.stop_le
  rw [Edit.visit]
  split
  · split
    · dsimp only
      split <;> omega
    · split <;> exact le
  · exact le

def InOrder (owner : Owner) (kind : UInt8) (a b : Lock State Owner) : Prop :=
  owned owner kind a = true → owned owner kind b = true → a.start ≤ a.stop ∧ a.stop < b.start ∧ (a.type = b.type → a.stop + 1 < b.start)

theorem Edit.Widened.foldl (wide : edit.Widened owner kind type start stop base seen) (nonempty : edit.start ≤ edit.stop)
    (le : edit.stop ≤ int64Max) (valid : ∀ lock ∈ rest, lock.Valid) (inOrder : (seen ++ rest).Pairwise (InOrder owner kind)) :
    (rest.foldl (Edit.visit owner kind type) edit).Widened owner kind type start stop base (seen ++ rest) := by
  induction rest generalizing seen edit with
  | nil => simpa using wide
  | cons lock rest ih =>
    have lockValid := valid lock (.head _)
    have next := wide.visit nonempty lockValid le fun k mem otherMine mine =>
      (pairwise_append.mp inOrder).2.2 k mem lock (.head _) otherMine mine
    rw [append_cons] at inOrder
    rw [append_cons]
    exact ih next (Edit.visit_nonempty nonempty) (Edit.visit_bounded lockValid le) (fun k mem => valid k (.tail _ mem)) inOrder

theorem prepareEdit_widened {root : LockTree State Owner} (ok : Searchable root) (valid : ∀ lock ∈ root.flatten, lock.Valid)
    (inOrder : root.flatten.Pairwise (InOrder owner kind)) (le : start ≤ stop) (bounded : stop ≤ int64Max) :
    (prepareEdit owner kind type root { start := start, stop := stop, needed := base }).Widened
      owner kind type start stop base root.flatten := by
  rw [prepareEdit_eq ok valid le]
  have unseen : Edit.Widened owner kind type start stop base ([] : List (Lock State Owner))
      { start := start, stop := stop, needed := base } :=
    ⟨Int.le_refl _, Int.le_refl _, fun _ low high => .inl ⟨low, high⟩, (fun _ _ mem => nomatch mem), rfl⟩
  exact unseen.foldl le bounded valid inOrder

/-- The tables while locks are detached: `olds` are still in the owner's list
but no longer in the tree, and the nodes at `loose` are in neither. -/
structure Editing (owner : Owner) (kind : UInt8) (elsewhere : List (Lock State Owner))
    (table : Table State Owner) (olds : List (Lock State Owner)) (loose : List UInt64) : Prop where
  searchable : Searchable table.root
  addresses : ((elsewhere ++ (table.root.flatten ++ olds)).map Lock.address ++ loose).Nodup
  ownerHead : table.ownerHead.Perm (elsewhere ++ (table.root.flatten.filter (owned owner kind) ++ olds))

variable {away olds : List (Lock State Owner)} {t : Table State Owner} {loose : List UInt64}

theorem Editing.unlink (editing : Editing owner kind away t (lock :: olds) loose) : ∃ head, ownerRemove t.ownerHead lock = some head ∧
      Editing owner kind away { t with ownerHead := head } olds (lock.address :: loose) := by
  have toFront : (away ++ (t.root.flatten.filter (owned owner kind) ++ lock :: olds)).Perm
      (lock :: (away ++ (t.root.flatten.filter (owned owner kind) ++ olds))) := by
    rw [← append_assoc, ← append_assoc]
    exact perm_middle
  have all : (away ++ (t.root.flatten ++ lock :: olds)).Perm (lock :: (away ++ (t.root.flatten ++ olds))) := by
    rw [← append_assoc, ← append_assoc]
    exact perm_middle
  have ne := ((all.map Lock.address).append_right loose).nodup_iff.mp editing.addresses
  have link : (lock :: (away ++ (t.root.flatten.filter (owned owner kind) ++ olds))).Sublist (lock :: (away ++ (t.root.flatten ++ olds))) :=
    ((filter_sublist.append_right olds).append_left away).cons_cons lock
  obtain ⟨head, gone, perm⟩ := ownerRemove_perm (editing.ownerHead.trans toFront) ((link.map Lock.address).nodup (nodup_append.mp ne).1)
  refine ⟨head, gone, editing.searchable, ?_, perm⟩
  refine (List.Perm.nodup_iff ?_).mp ne
  exact perm_middle.symm

theorem Editing.publish (editing : Editing owner kind away t olds (addr :: loose)) (lock : Lock State Owner) (eq : lock.address = addr)
    (mine : owned owner kind lock = true) (placed : lock.state = s) : Editing owner kind away (publish s t lock) olds loose ∧
      (RecordLock.publish s t lock).root.flatten.Perm (lock :: t.root.flatten) := by
  subst placed eq
  have new : (RecordLock.publish lock.state t lock).root.flatten.Perm (lock :: t.root.flatten) := AvlTree.insert_perm _ _ _
  have distinct := perm_middle.nodup_iff.mp editing.addresses
  have fresh := (nodup_cons.mp distinct).1
  refine ⟨⟨editing.searchable.treeInsert fun k mem eq => fresh ?_, ?_, ?_⟩, new⟩
  · refine mem_append_left _ (mem_map.mpr ⟨k, ?_, eq.symm⟩)
    exact mem_append_right _ (mem_append_left _ mem)
  · have whole := ((new.append_right olds).append_left away).trans perm_middle
    exact ((whole.map Lock.address).append_right loose).nodup_iff.mpr distinct
  · have kept := (new.filter (owned owner kind)).trans (.of_eq (filter_cons_of_pos mine))
    refine (editing.ownerHead.cons _).trans ?_
    exact perm_middle.symm.trans ((kept.symm.append_right olds).append_left away)

theorem Editing.free (editing : Editing owner kind away t olds (addr :: loose)) : Editing owner kind away t olds loose :=
  ⟨editing.searchable, (nodup_cons.mp (perm_middle.nodup_iff.mp editing.addresses)).2, editing.ownerHead⟩

theorem Editing.supply (editing : Editing owner kind away t [] []) (nodup : spares.Nodup)
    (unused : ∀ lock ∈ away ++ t.root.flatten, lock.address ∉ spares) : Editing owner kind away t [] spares := by
  have addresses := editing.addresses
  rw [append_nil, append_nil] at addresses
  refine ⟨editing.searchable, ?_, editing.ownerHead⟩
  rw [append_nil]
  refine nodup_append.mpr ⟨addresses, nodup, fun a aIn b bIn eq => ?_⟩
  obtain ⟨lock, lockIn, addrEq⟩ := mem_map.mp aIn
  exact unused lock lockIn (addrEq ▸ eq ▸ bIn)

theorem Editing.extract (start stop : Int) (editing : Editing owner kind away t [] spares) : Editing owner kind away
      { t with root := (extractOwned owner kind start stop t.root []).1 }
      (extractOwned owner kind start stop t.root []).2 spares := by
  obtain ⟨kept, -, gone⟩ : (extractOwned owner kind start stop t.root []).1.flatten = _ ∧ _ := extractOwned_spec editing.searchable []
  rw [append_nil] at gone
  have whole : ((extractOwned owner kind start stop t.root []).1.flatten ++
      (extractOwned owner kind start stop t.root []).2).Perm t.root.flatten := by
    rw [kept]
    exact (gone.append_left _).trans (perm_append_comm.trans (filter_append_perm _ _))
  have mine : ((extractOwned owner kind start stop t.root []).2).filter (owned owner kind) =
      (extractOwned owner kind start stop t.root []).2 := by
    refine filter_eq_self.mpr fun lock mem => ?_
    have isMet := (mem_filter.mp (gone.mem_iff.mp mem)).2
    exact owned_iff.mpr (met_iff.mp isMet).1
  refine ⟨extractOwned_searchable editing.searchable [], ?_, ?_⟩
  · refine (((whole.append_left away).map Lock.address).append_right spares).nodup_iff.mpr ?_
    simpa using editing.addresses
  refine editing.ownerHead.trans (List.Perm.append_left away ?_)
  have perm := whole.filter (owned owner kind)
  rw [List.filter_append, mine] at perm
  rw [append_nil]
  exact perm.symm

theorem Editing.remove (editing : Editing owner kind away t [] []) (mem : lock ∈ t.root.flatten) (mine : owned owner kind lock = true) :
    ∃ root head, treeRemove t.root lock = some root ∧ ownerRemove t.ownerHead lock = some head ∧
      t.root.flatten.Perm (lock :: root.flatten) ∧ Editing owner kind away { root := root, ownerHead := head } [] [] := by
  have distinct := editing.addresses
  have head := editing.ownerHead
  rw [append_nil, append_nil] at distinct
  rw [append_nil] at head
  obtain ⟨root, gone, perm, ok⟩ := editing.searchable.treeRemove mem fun k otherIn eq =>
    inj_on_of_nodup_map distinct (mem_append_right _ otherIn) (mem_append_right _ mem) eq
  have whole := (perm.append_left away).trans perm_middle
  have distinctAfter := (whole.map Lock.address).nodup_iff.mp distinct
  have mineAfter := (perm.filter (owned owner kind)).trans (.of_eq (filter_cons_of_pos mine))
  have link : (lock :: (away ++ root.flatten.filter (owned owner kind))).Sublist
      (lock :: (away ++ root.flatten)) := (filter_sublist.append_left away).cons_cons lock
  obtain ⟨s', unlinked, afterPerm⟩ := ownerRemove_perm (head.trans ((mineAfter.append_left away).trans perm_middle))
    ((link.map Lock.address).nodup distinctAfter)
  refine ⟨root, s', gone, unlinked, perm, ok, ?_, ?_⟩
  · rw [append_nil, append_nil]
    exact (nodup_cons.mp distinctAfter).2
  · rw [append_nil]
    exact afterPerm

structure Replaced (owner : Owner) (kind : UInt8) (state : State) (start stop : Int)
    (elsewhere : List (Lock State Owner)) (before after : Table State Owner)
    (olds pieces : List (Lock State Owner)) (spares rest : List UInt64) : Prop where
  editing : Editing owner kind elsewhere after [] rest
  perm : after.root.flatten.Perm (pieces ++ before.root.flatten)
  piece : ∀ piece ∈ pieces, ∃ old ∈ olds, PieceOf state start stop old piece
  address : ∀ piece ∈ pieces, piece.address ∈ olds.map Lock.address ∨ piece.address ∈ spares
  apart : olds.Pairwise Apart → pieces.Pairwise Apart
  rest_subset : ∀ address ∈ rest, address ∈ spares
  spares_eq : rest.length + (olds.filter (splits owner kind start stop)).length = spares.length

theorem Replaced.cons {pre mid s' : Table State Owner} {pieces : List (Lock State Owner)} {spares used rest : List UInt64}
    {old : Lock State Owner} (parts : List (Lock State Owner)) (new : Replaced owner kind s start stop away mid s' olds pieces used rest)
    (inserted : mid.root.flatten.Perm (parts ++ pre.root.flatten)) (partOf : ∀ part ∈ parts, PieceOf s start stop old part)
    (partsApart : parts.Pairwise Apart) (addr : ∀ part ∈ parts, part.address = old.address ∨ part.address ∈ spares)
    (subset : ∀ addr ∈ used, addr ∈ spares) (n : used.length + ([old].filter (splits owner kind start stop)).length = spares.length) :
    Replaced owner kind s start stop away pre s' (old :: olds) (parts ++ pieces) spares rest := by
  refine ⟨new.editing, ?_, ?_, ?_, pieces_apart partOf partsApart new.piece new.apart,
    fun addr mem => subset addr (new.rest_subset addr mem), ?_⟩
  · refine new.perm.trans ((inserted.append_left pieces).trans ?_)
    rw [← append_assoc]
    exact perm_append_comm.append_right _
  · intro piece mem
    rcases mem_append.mp mem with isPart | later
    · exact ⟨old, .head _, partOf piece isPart⟩
    obtain ⟨k, otherIn, isPiece⟩ := new.piece piece later
    exact ⟨k, .tail _ otherIn, isPiece⟩
  · intro piece mem
    rw [map_cons, mem_cons]
    rcases mem_append.mp mem with isPart | later
    · exact (addr piece isPart).imp .inl id
    · exact (new.address piece later).imp .inr (subset _)
  · have := new.spares_eq
    rw [← singleton_append, List.filter_append, length_append]
    omega

theorem replaceOwned_spec (editing : Editing owner kind away t olds spares) (nonempty : start ≤ stop)
    (mine : ∀ old ∈ olds, owned owner kind old = true) (placed : ∀ old ∈ olds, old.state = s)
    (meets : ∀ old ∈ olds, old.start ≤ stop ∧ start ≤ old.stop)
    (enough : (olds.filter (splits owner kind start stop)).length ≤ spares.length) :
    ∃ s' pieces rest, replaceOwned owner kind s start stop olds t spares = some (s', rest) ∧
      Replaced owner kind s start stop away t s' olds pieces spares rest := by
  induction olds generalizing t spares with
  | nil => exact ⟨t, [], spares, rfl, editing, .refl _, nofun, nofun, fun _ => .nil, fun _ mem => mem, rfl⟩
  | cons old olds ih =>
    obtain ⟨_, gone, unlinked⟩ := editing.unlink
    have oldMine := mine old (.head _)
    have oldPlaced := placed old (.head _)
    have oldMeets := meets old (.head _)
    obtain ⟨ownerEq, kindEq⟩ := owned_iff.mp oldMine
    have continues := fun {t spares} editing => @ih t spares editing (fun k mem => mine k (mem_cons_of_mem old mem))
      (fun k mem => placed k (mem_cons_of_mem old mem))
      (fun k mem => meets k (mem_cons_of_mem old mem))
    have leftPart : old.start < start → PieceOf s start stop old { old with stop := start - 1 } :=
      fun left => ⟨oldPlaced, rfl, rfl, rfl, ⟨Int.le_refl _, by dsimp only; omega⟩, by dsimp only; omega, .inl (by dsimp only; omega)⟩
    have rightPart : ∀ addr, old.stop > stop → PieceOf s start stop old { old with address := addr, start := stop + 1 } :=
      fun _ right => ⟨oldPlaced, rfl, rfl, rfl, ⟨by dsimp only; omega, Int.le_refl _⟩, by dsimp only; omega, .inr (by dsimp only; omega)⟩
    rw [replaceOwned, gone]
    dsimp only
    by_cases left : old.start < start
    · rw [if_pos left]
      obtain ⟨leftEditing, leftPerm⟩ := unlinked.publish
        { old with stop := start - 1 } rfl oldMine oldPlaced
      by_cases right : old.stop > stop
      · have cut : splits owner kind start stop old = true := splits_iff.mpr ⟨oldMine, left, right⟩
        rw [filter_cons, if_pos cut, length_cons] at enough
        cases spares with
        | nil => simp at enough
        | cons tail spares =>
          rw [if_pos right]
          obtain ⟨rightEditing, rightPerm⟩ := leftEditing.publish
            { old with address := tail, start := stop + 1 } rfl oldMine oldPlaced
          rw [length_cons] at enough
          obtain ⟨s', pieces, rest, res, new⟩ := continues rightEditing (by omega)
          refine ⟨s', _, rest, ?_, new.cons [{ old with address := tail, start := stop + 1 }, { old with stop := start - 1 }]
            (rightPerm.trans (leftPerm.cons _)) ?_ ?_ ?_ ?_ ?_⟩
          · simpa only [ownerEq, kindEq, oldPlaced] using res
          · simp only [mem_cons, not_mem_nil, or_false, forall_eq_or_imp, forall_eq]
            exact ⟨rightPart tail right, leftPart left⟩
          · refine pairwise_pair.mpr ⟨.inr ?_, fun _ => .inr ?_⟩ <;> dsimp only <;> omega
          · simp
          · exact fun addr mem => .tail _ mem
          · simp [cut]
      · have whole : splits owner kind start stop old = false := by
          rw [Bool.eq_false_iff, ne_eq, splits_iff]
          exact fun cut => right cut.2.2
        rw [filter_cons, if_neg (by simp [whole])] at enough
        rw [if_neg right]
        obtain ⟨s', pieces, rest, res, new⟩ := continues leftEditing enough
        refine ⟨s', _, rest, res, new.cons [{ old with stop := start - 1 }] leftPerm ?_ (pairwise_singleton _ _) ?_ (fun _ mem => mem) ?_⟩
        · simpa using leftPart left
        · simp
        · simp [whole]
    · have whole : splits owner kind start stop old = false := by
        rw [Bool.eq_false_iff, ne_eq, splits_iff]
        exact fun cut => left cut.2.1
      rw [filter_cons, if_neg (by simp [whole])] at enough
      rw [if_neg left]
      by_cases right : old.stop > stop
      · rw [if_pos right]
        obtain ⟨rightEditing, rightPerm⟩ := unlinked.publish
          { old with start := stop + 1 } rfl oldMine oldPlaced
        obtain ⟨s', pieces, rest, res, new⟩ := continues rightEditing enough
        refine ⟨s', _, rest, res, new.cons [{ old with start := stop + 1 }] rightPerm ?_ (pairwise_singleton _ _) ?_ (fun _ mem => mem) ?_⟩
        · simpa using rightPart old.address right
        · simp
        · simp [whole]
      · rw [if_neg right]
        obtain ⟨s', _, rest, res, new⟩ := continues unlinked.free enough
        exact ⟨s', _, rest, res, new.cons [] (.refl _) nofun .nil nofun (fun _ mem => mem) (by simp [whole])⟩

end
end BoarOS.RecordLock
