import Mathlib.Data.Nat.Fib.Basic

namespace BoarOS.Data
open List

/-! Height-balanced trees whose nodes also cache the greatest measure below them.

`flatten` is the meaning of a tree. Heights and reaches are data the operations
store; `WellFormed` says that they are right and that the tree is balanced.
-/

inductive AvlTree (α β : Type) where
  | nil
  | node (left : AvlTree α β) (value : α) (height : Nat) (reach : β) (right : AvlTree α β)
deriving Repr, DecidableEq

namespace AvlTree
variable {α β : Type}
variable {left l right r : AvlTree α β} {tree : AvlTree α β}

def height : AvlTree α β → Nat
  | .nil => 0
  | .node _ _ height _ _ => height

@[simp] theorem height_nil : (AvlTree.nil : AvlTree α β).height = 0 := rfl

@[simp] theorem height_node (l : AvlTree α β) (v : α) (depth : Nat) (reach : β)
    (r : AvlTree α β) : (AvlTree.node l v depth reach r).height = depth := rfl

def flatten : AvlTree α β → List α
  | .nil => []
  | .node left value _ _ right => left.flatten ++ value :: right.flatten

section
variable [LinearOrder β] (measure : α → β)

def reachWith (measure : β) : AvlTree α β → β
  | .nil => measure
  | .node _ _ _ reach _ => max measure reach

def update (left : AvlTree α β) (value : α) (right : AvlTree α β) : AvlTree α β :=
  .node left value (1 + max left.height right.height) (reachWith (reachWith (measure value) left) right) right

def rotateLeft (left : AvlTree α β) (value : α) : AvlTree α β → AvlTree α β
  | .nil => update measure left value .nil
  | .node inner next _ _ right => update measure (update measure left value inner) next right

def rotateRight (value : α) (right : AvlTree α β) : AvlTree α β → AvlTree α β
  | .nil => update measure .nil value right
  | .node left next _ _ inner => update measure left next (update measure inner value right)

def balance (left : AvlTree α β) (value : α) (right : AvlTree α β) : AvlTree α β :=
  if left.height > right.height + 1 then
    match left with
    | .nil => update measure left value right
    | .node outer next _ _ inner =>
      if outer.height < inner.height then
        rotateRight measure value right (rotateLeft measure outer next inner)
      else rotateRight measure value right left
  else if right.height > left.height + 1 then
    match right with
    | .nil => update measure left value right
    | .node inner next _ _ outer =>
      if outer.height < inner.height then
        rotateLeft measure left value (rotateRight measure next outer inner)
      else rotateLeft measure left value right
  else update measure left value right

def insert (before : α → α → Bool) (value : α) : AvlTree α β → AvlTree α β
  | .nil => update measure .nil value .nil
  | .node left root _ _ right =>
    if before value root then balance measure (insert before value left) root right
    else balance measure left root (insert before value right)

def extractMin : AvlTree α β → α → AvlTree α β → α × AvlTree α β
  | .nil, value, right => (value, right)
  | .node left root _ _ inner, value, right =>
    let (least, rest) := extractMin left root inner
    (least, balance measure rest value right)

/-- Removes the node `same` holds for; `none` when the search for it ends at an
empty tree. -/
def remove (before : α → α → Bool) (same : α → Bool) (value : α) : AvlTree α β → Option (AvlTree α β)
  | .nil => none
  | .node left root _ _ right =>
    if same root = false then
      if before value root then
        (remove before same value left).map fun left => balance measure left root right
      else (remove before same value right).map fun right => balance measure left root right
    else
      match left, right with
      | .nil, right => some right
      | left, .nil => some left
      | left, .node inner next _ _ outer =>
        let (least, rest) := extractMin measure inner next outer
        some (balance measure left least rest)

def joinRoot (left : AvlTree α β) (value : α) (right : AvlTree α β) : AvlTree α β :=
  if left.height > right.height + 1 then
    match left with
    | .nil => update measure left value right
    | .node outer root _ _ inner => balance measure outer root (joinRoot inner value right)
  else if right.height > left.height + 1 then
    match right with
    | .nil => update measure left value right
    | .node inner root _ _ outer => balance measure (joinRoot left value inner) root outer
  else update measure left value right
termination_by sizeOf left + sizeOf right

def joinTrees : AvlTree α β → AvlTree α β → AvlTree α β
  | .nil, right => right
  | left, .nil => left
  | left, .node inner root _ _ outer =>
    let (least, rest) := extractMin measure inner root outer
    joinRoot measure left least rest

/-- The cached fields are right and the subtrees of each node are balanced. -/
def WellFormed : AvlTree α β → Prop
  | .nil => True
  | .node left value height reach right =>
    height = 1 + max left.height right.height ∧
    reach = reachWith (reachWith (measure value) left) right ∧
    left.height ≤ right.height + 1 ∧ right.height ≤ left.height + 1 ∧
    left.WellFormed ∧ right.WellFormed

variable {measure}

section
variable (l : AvlTree α β) (v : α) (r : AvlTree α β)

@[simp] theorem update_flatten : (update measure l v r).flatten = l.flatten ++ v :: r.flatten := rfl

@[simp] theorem rotateLeft_flatten : (rotateLeft measure l v r).flatten = l.flatten ++ v :: r.flatten := by
  cases r with
  | nil => rfl
  | node inner next height reach outer => simp [rotateLeft, flatten]

@[simp] theorem rotateRight_flatten (v : α) (r l : AvlTree α β) : (rotateRight measure v r l).flatten = l.flatten ++ v :: r.flatten := by
  cases l with
  | nil => rfl
  | node outer next height reach inner => simp [rotateRight, flatten]

@[simp] theorem balance_flatten : (balance measure l v r).flatten = l.flatten ++ v :: r.flatten := by
  rw [balance.eq_def]
  split
  · cases l with
    | nil => rfl
    | node outer next height reach inner =>
      simp only
      split <;> simp [flatten]
  split
  · cases r with
    | nil => rfl
    | node inner next height reach outer =>
      simp only
      split <;> simp [flatten]
  · rfl

theorem extractMin_flatten : (extractMin measure l v r).1 :: (extractMin measure l v r).2.flatten = l.flatten ++ v :: r.flatten := by
  induction l generalizing v r with
  | nil => rfl
  | node outer root height reach inner ih _ =>
    rw [extractMin]
    simp only [balance_flatten, flatten, append_assoc]
    rw [← cons_append, ih]
    simp

@[simp] theorem joinRoot_flatten : (joinRoot measure l v r).flatten = l.flatten ++ v :: r.flatten := by
  fun_induction joinRoot measure l v r with
  | case1 => rfl
  | case2 r outer root height reach inner tall ih => simp [flatten, ih]
  | case3 => rfl
  | case4 l inner root height reach outer low tall ih => simp [flatten, ih]
  | case5 => rfl

@[simp] theorem joinTrees_flatten : (joinTrees measure l r).flatten = l.flatten ++ r.flatten := by
  cases l with
  | nil => cases r <;> simp [joinTrees, flatten]
  | node outer root height reach inner =>
    cases r with
    | nil => simp [joinTrees, flatten]
    | node near next depth extent far =>
      rw [joinTrees, joinRoot_flatten, extractMin_flatten]
      rfl
      nofun

end

@[simp] theorem update_height (l : AvlTree α β) (v : α) (r : AvlTree α β) : (update measure l v r).height = 1 + max l.height r.height := rfl

theorem update_wellFormed (v : α) (okL : l.WellFormed measure) (okR : r.WellFormed measure)
    (lowL : l.height ≤ r.height + 1) (lowR : r.height ≤ l.height + 1) : (update measure l v r).WellFormed measure :=
  ⟨rfl, rfl, lowL, lowR, okL, okR⟩

/-- The height after rebalancing lies between that of the higher subtree and one more. -/
structure Rebuilt (measure : α → β) (tree : AvlTree α β) (low : Nat) : Prop where
  wellFormed : tree.WellFormed measure
  low_le : low ≤ tree.height
  le_high : tree.height ≤ low + 1

theorem rotateRight_rebuilt {inner outer : AvlTree α β} {next : α} (v : α)
    (okL : (AvlTree.node outer next depth extent inner).WellFormed measure) (okR : r.WellFormed measure)
    (tall : depth = r.height + 2) : Rebuilt measure (balance measure (.node outer next depth extent inner) v r) depth := by
  obtain ⟨_, _, _, _, outerOk, innerOk⟩ := okL
  rw [balance.eq_def, if_pos (by rw [height_node]; omega)]
  simp only
  split
  next less =>
    cases inner with
    | nil => simp at less
    | node nearer mid span bound farther =>
      obtain ⟨_, _, _, _, nearOk, farOk⟩ := innerOk
      simp only [height_node] at *
      have first := update_wellFormed next outerOk nearOk (by omega) (by omega)
      have snd := update_wellFormed v farOk okR (by omega) (by omega)
      change Rebuilt measure (update measure (update measure outer next nearer) mid (update measure farther v r)) depth
      refine ⟨update_wellFormed mid first snd ?_ ?_, ?_, ?_⟩ <;> simp only [update_height] <;> omega
  · have sub := update_wellFormed v innerOk okR (by omega) (by omega)
    refine ⟨update_wellFormed next outerOk sub ?_ ?_, ?_, ?_⟩ <;> simp only [rotateRight, update_height] <;> omega

theorem rotateLeft_rebuilt {inner outer : AvlTree α β} {next : α} (v : α) (okL : l.WellFormed measure)
    (okR : (AvlTree.node inner next depth extent outer).WellFormed measure) (tall : depth = l.height + 2) :
    Rebuilt measure (balance measure l v (.node inner next depth extent outer)) depth := by
  obtain ⟨_, _, _, _, innerOk, outerOk⟩ := okR
  rw [balance.eq_def, if_neg (by rw [height_node]; omega), if_pos (by rw [height_node]; omega)]
  simp only
  split
  next less =>
    cases inner with
    | nil => simp at less
    | node nearer mid span bound farther =>
      obtain ⟨_, _, _, _, nearOk, farOk⟩ := innerOk
      simp only [height_node] at *
      have first := update_wellFormed v okL nearOk (by omega) (by omega)
      have snd := update_wellFormed next farOk outerOk (by omega) (by omega)
      change Rebuilt measure (update measure (update measure l v nearer) mid (update measure farther next outer)) depth
      refine ⟨update_wellFormed mid first snd ?_ ?_, ?_, ?_⟩ <;> simp only [update_height] <;> omega
  · have sub := update_wellFormed v okL innerOk (by omega) (by omega)
    refine ⟨update_wellFormed next sub outerOk ?_ ?_, ?_, ?_⟩ <;> simp only [rotateLeft, update_height] <;> omega

theorem balance_rebuilt (v : α) (okL : l.WellFormed measure) (okR : r.WellFormed measure) (lowL : l.height ≤ r.height + 2)
    (lowR : r.height ≤ l.height + 2) : Rebuilt measure (balance measure l v r) (max l.height r.height) := by
  by_cases leftTall : l.height = r.height + 2
  · cases l with
    | nil => simp [height] at leftTall
    | node outer next depth extent inner =>
      have rebuilt := rotateRight_rebuilt v okL okR leftTall
      rwa [max_eq_left (by omega)]
  by_cases rightTall : r.height = l.height + 2
  · cases r with
    | nil => simp [height] at rightTall
    | node inner next depth extent outer =>
      have rebuilt := rotateLeft_rebuilt v okL okR rightTall
      rwa [max_eq_right (by omega)]
  · rw [balance.eq_def, if_neg (by omega), if_neg (by omega)]
    exact ⟨update_wellFormed v okL okR (by omega) (by omega), by rw [update_height]; omega, by rw [update_height]; omega⟩

theorem balance_height (v : α) (lowL : l.height ≤ r.height + 1) (lowR : r.height ≤ l.height + 1) :
    (balance measure l v r).height = 1 + max l.height r.height := by
  rw [balance.eq_def, if_neg (by omega), if_neg (by omega)]
  rfl

theorem balance_grown (v : α) (leftGrown : Rebuilt measure l leftHeight) (rightGrown : Rebuilt measure r rightHeight)
    (lowL : leftHeight ≤ rightHeight + 1) (lowR : rightHeight ≤ leftHeight + 1) :
    Rebuilt measure (balance measure l v r) (1 + max leftHeight rightHeight) := by
  obtain ⟨okL, _⟩ := leftGrown
  obtain ⟨okR, _⟩ := rightGrown
  have rebuilt := balance_rebuilt v okL okR (by omega) (by omega)
  have low := rebuilt.low_le
  have high := rebuilt.le_high
  have level : l.height ≤ r.height + 1 → r.height ≤ l.height + 1 → (balance measure l v r).height = _ := balance_height v
  exact ⟨rebuilt.wellFormed, by omega, by omega⟩

theorem balance_shrunk (v : α) (okL : l.WellFormed measure) (okR : r.WellFormed measure) (leftMax : l.height ≤ leftHeight)
    (rightMax : r.height ≤ rightHeight) (lowL : leftHeight ≤ rightHeight + 1) (lowR : rightHeight ≤ leftHeight + 1)
    (one : leftHeight + rightHeight ≤ l.height + r.height + 1) : Rebuilt measure (balance measure l v r) (max leftHeight rightHeight) := by
  have rebuilt := balance_rebuilt v okL okR (by omega) (by omega)
  have low := rebuilt.low_le
  have high := rebuilt.le_high
  have level : l.height ≤ r.height + 1 → r.height ≤ l.height + 1 → (balance measure l v r).height = _ := balance_height v
  exact ⟨rebuilt.wellFormed, by omega, by omega⟩

theorem WellFormed.rebuilt (ok : tree.WellFormed measure) : Rebuilt measure tree tree.height := ⟨ok, le_rfl, Nat.le_succ _⟩

theorem insert_rebuilt (pre : α → α → Bool) (v : α)
    (ok : tree.WellFormed measure) : Rebuilt measure (tree.insert measure pre v) tree.height := by
  induction tree with
  | nil => exact ⟨update_wellFormed v ok ok (by omega) (by omega), by simp, by simp [insert]⟩
  | node l root depth reach r leftIh rightIh =>
    obtain ⟨depthEq, _, lowL, lowR, okL, okR⟩ := ok
    rw [depthEq, insert]
    split
    · exact balance_grown root (leftIh okL) okR.rebuilt lowL lowR
    · exact balance_grown root okL.rebuilt (rightIh okR) lowL lowR

theorem extractMin_rebuilt (v : α) (okL : l.WellFormed measure) (okR : r.WellFormed measure) (lowL : l.height ≤ r.height + 1)
    (lowR : r.height ≤ l.height + 1) : Rebuilt measure (extractMin measure l v r).2 (max l.height r.height) := by
  induction l generalizing v r with
  | nil => exact ⟨okR, by simp [extractMin], by simp [extractMin]⟩
  | node outer root depth reach inner ih _ =>
    obtain ⟨_, _, outerLow, innerLow, outerOk, innerOk⟩ := okL
    obtain ⟨restOk, _⟩ := ih root outerOk innerOk outerLow innerLow
    rw [height_node] at lowL lowR ⊢
    exact balance_shrunk v restOk okR (by omega) le_rfl lowL lowR (by omega)

theorem joinRoot_rebuilt (v : α) (okL : l.WellFormed measure) (okR : r.WellFormed measure) :
    Rebuilt measure (joinRoot measure l v r) (max l.height r.height) := by
  fun_induction joinRoot measure l v r with
  | case1 r tall | case3 l low tall => simp at tall
  | case2 r outer root depth reach inner tall ih =>
    obtain ⟨depthEq, _, outerLow, innerLow, outerOk, innerOk⟩ := okL
    rw [height_node] at tall ⊢
    have join := ih innerOk okR
    rw [max_eq_left (by omega)] at join
    rw [max_eq_left (by omega), depthEq]
    exact balance_grown root outerOk.rebuilt join outerLow innerLow
  | case4 l inner root depth reach outer low tall ih =>
    obtain ⟨depthEq, _, innerLow, outerLow, innerOk, outerOk⟩ := okR
    rw [height_node] at tall ⊢
    have join := ih okL innerOk
    rw [max_eq_right (by omega)] at join
    rw [max_eq_right (by omega), depthEq]
    exact balance_grown root join outerOk.rebuilt innerLow outerLow
  | case5 l r lowL lowR =>
    exact ⟨update_wellFormed v okL okR (by omega) (by omega), by rw [update_height]; omega, by rw [update_height]; omega⟩

theorem joinTrees_wellFormed (okL : l.WellFormed measure) (okR : r.WellFormed measure) : (joinTrees measure l r).WellFormed measure := by
  cases l with
  | nil => rwa [joinTrees]
  | node outer root height reach inner =>
    cases r with
    | nil => rwa [joinTrees]; nofun
    | node near next depth extent far =>
      rw [joinTrees]
      · obtain ⟨_, _, nearLow, farLow, nearOk, farOk⟩ := okR
        exact (joinRoot_rebuilt _ okL (extractMin_rebuilt next nearOk farOk nearLow farLow).wellFormed).wellFormed
      · nofun

theorem insert_perm (pre : α → α → Bool) (v : α) (tree : AvlTree α β) : (tree.insert measure pre v).flatten.Perm (v :: tree.flatten) := by
  induction tree with
  | nil => exact .refl _
  | node l root depth reach r leftIh rightIh =>
    rw [insert]
    split
    · rw [balance_flatten]
      exact leftIh.append_right _
    · rw [balance_flatten]
      exact ((rightIh.cons root).append_left _).trans ((perm_append_left_iff _).mpr (.swap v root _) |>.trans perm_middle)

theorem insert_ordered (trans : ∀ a b c, pre a b → pre b c → pre a c) (sorted : tree.flatten.Pairwise fun a b => pre a b = true)
    (total : ∀ a ∈ tree.flatten, pre v a = true ∨ pre a v = true) :
    (tree.insert measure pre v).flatten.Pairwise fun a b => pre a b = true := by
  induction tree with
  | nil => exact pairwise_singleton _ _
  | node l root depth reach r leftIh rightIh =>
    simp only [flatten, mem_append, mem_cons] at total
    obtain ⟨leftOrdered, rootOrdered, across⟩ := pairwise_append.mp sorted
    obtain ⟨rootFirst, rightOrdered⟩ := pairwise_cons.mp rootOrdered
    rw [insert]
    split
    next less =>
      rw [balance_flatten]
      refine pairwise_append.mpr ⟨leftIh leftOrdered fun a mem => total a (.inl mem), rootOrdered, ?_⟩
      intro a aIn b bIn
      rcases mem_cons.mp ((insert_perm pre v l).mem_iff.mp aIn) with eq | mem
      · subst eq
        rcases mem_cons.mp bIn with eq | mem
        · exact eq ▸ less
        · exact trans _ _ _ less (rootFirst b mem)
      · exact across a mem b bIn
    rename_i notLess
    have after : pre root v = true := (total root (.inr (.inl rfl))).resolve_left notLess
    rw [balance_flatten]
    refine pairwise_append.mpr ⟨leftOrdered, pairwise_cons.mpr ⟨?_, rightIh rightOrdered fun a mem => total a (.inr (.inr mem))⟩, ?_⟩
    · intro b bIn
      rcases mem_cons.mp ((insert_perm pre v r).mem_iff.mp bIn) with eq | mem
      · exact eq ▸ after
      · exact rootFirst b mem
    intro a aIn b bIn
    rcases mem_cons.mp bIn with eq | later
    · exact across a aIn b (eq ▸ mem_cons_self)
    rcases mem_cons.mp ((insert_perm pre v r).mem_iff.mp later) with eq | mem
    · exact eq ▸ trans _ _ _ (across a aIn root mem_cons_self) after
    · exact across a aIn b (mem_cons_of_mem _ mem)

structure Removed (measure : α → β) (tree : AvlTree α β) (value : α) (rest : AvlTree α β) : Prop where
  perm : tree.flatten.Perm (value :: rest.flatten)
  sublist : rest.flatten.Sublist tree.flatten
  wellFormed : rest.WellFormed measure
  low_le : tree.height ≤ rest.height + 1
  le_high : rest.height ≤ tree.height

theorem remove_spec (asymm : ∀ a b, pre a b → pre b a = false) (itself : ∀ a ∈ tree.flatten, eq a = true ↔ a = value)
    (sorted : tree.flatten.Pairwise fun a b => pre a b = true) (mem : value ∈ tree.flatten) (ok : tree.WellFormed measure) :
    ∃ rest, tree.remove measure pre eq value = some rest ∧ Removed measure tree value rest := by
  induction tree with
  | nil => cases mem
  | node l root depth reach r leftIh rightIh =>
    obtain ⟨depthEq, _, lowL, lowR, okL, okR⟩ := ok
    obtain ⟨leftOrdered, rootOrdered, across⟩ := pairwise_append.mp sorted
    obtain ⟨rootFirst, rightOrdered⟩ := pairwise_cons.mp rootOrdered
    simp only [flatten, mem_append, mem_cons] at itself mem
    by_cases here : eq root = true
    · have rootEq := (itself root (.inr (.inl rfl))).mp here
      subst rootEq
      cases l with
      | nil =>
        refine ⟨r, by simp [remove, here], .refl _, ?_, okR, ?_, ?_⟩
        · exact sublist_cons_self _ _
        · simp only [height_node, height_nil] at *; omega
        · simp only [height_node] at *; omega
      | node outer next span bound inner =>
        cases r with
        | nil =>
          refine ⟨.node outer next span bound inner, by simp [remove, here], ?_, ?_, okL, ?_, ?_⟩
          · exact perm_middle.trans (by simp [flatten])
          · exact sublist_append_left _ _
          · simp only [height_node, height_nil] at *; omega
          · simp only [height_node] at *; omega
        | node near mid extent far beyond =>
          obtain ⟨_, _, nearLow, beyondLow, nearOk, beyondOk⟩ := okR
          obtain ⟨restOk, _⟩ := extractMin_rebuilt mid nearOk beyondOk nearLow beyondLow
          rw [height_node near] at lowL lowR depthEq
          have rebuilt := balance_shrunk (extractMin measure near mid beyond).1 okL restOk le_rfl (by omega) lowL lowR (by omega)
          have low := rebuilt.low_le
          have high := rebuilt.le_high
          refine ⟨_, by simp only [remove, here]; rfl, ?_, ?_, rebuilt.wellFormed, ?_, ?_⟩
          · rw [balance_flatten, extractMin_flatten]
            exact perm_middle
          · rw [balance_flatten, extractMin_flatten]
            exact (sublist_cons_self _ _).append_left _
          · rw [height_node, depthEq]; omega
          · rw [height_node, depthEq]; omega
    have other : eq root = false := by simpa using here
    have rootNe : root ≠ value := fun rootEq => here ((itself root (.inr (.inl rfl))).mpr rootEq)
    by_cases less : pre value root = true
    · have onLeft : value ∈ l.flatten := by
        rcases mem with onLeft | atRoot | onRight
        · exact onLeft
        · exact absurd atRoot.symm rootNe
        have := asymm _ _ (rootFirst value onRight)
        rw [less] at this
        cases this
      obtain ⟨rest, got, gone⟩ := leftIh (fun a aIn => itself a (.inl aIn)) leftOrdered onLeft okL
      have rebuilt := balance_shrunk root gone.wellFormed okR gone.le_high le_rfl lowL lowR (by have := gone.low_le; omega)
      have low := rebuilt.low_le
      have high := rebuilt.le_high
      refine ⟨balance measure rest root r, by simp [remove, other, less, got], ?_, ?_, rebuilt.wellFormed, ?_, ?_⟩
      · rw [balance_flatten]
        exact gone.perm.append_right _
      · rw [balance_flatten]
        exact gone.sublist.append_right _
      · rw [height_node, depthEq]; omega
      · rw [height_node, depthEq]; omega
    · have onRight : value ∈ r.flatten := by
        rcases mem with onLeft | atRoot | onRight
        · exact absurd (across value onLeft root mem_cons_self) less
        · exact absurd atRoot.symm rootNe
        · exact onRight
      obtain ⟨rest, got, gone⟩ := rightIh (fun a aIn => itself a (.inr (.inr aIn))) rightOrdered onRight okR
      have rebuilt := balance_shrunk root okL gone.wellFormed le_rfl gone.le_high lowL lowR (by have := gone.low_le; omega)
      have low := rebuilt.low_le
      have high := rebuilt.le_high
      refine ⟨balance measure l root rest, by simp [remove, other, less, got], ?_, ?_, rebuilt.wellFormed, ?_, ?_⟩
      · rw [balance_flatten]
        exact ((gone.perm.cons root).append_left _).trans (((perm_append_left_iff _).mpr (.swap value root _)).trans perm_middle)
      · rw [balance_flatten]
        exact (gone.sublist.cons_cons root).append_left _
      · rw [height_node, depthEq]; omega
      · rw [height_node, depthEq]; omega

def depth : AvlTree α β → Nat
  | .nil => 0
  | .node left _ _ _ right => 1 + max left.depth right.depth

def Balanced : AvlTree α β → Prop
  | .nil => True
  | .node left _ height _ right =>
    height = 1 + max left.depth right.depth ∧
    left.depth ≤ right.depth + 1 ∧ right.depth ≤ left.depth + 1 ∧ left.Balanced ∧ right.Balanced

def ReachExact (measure : α → β) : AvlTree α β → Prop
  | .nil => True
  | .node left value height reach right =>
    IsGreatest {m | ∃ a ∈ (AvlTree.node left value height reach right).flatten, measure a = m} reach ∧
    left.ReachExact measure ∧ right.ReachExact measure

theorem WellFormed.depth_eq (ok : tree.WellFormed measure) : tree.depth = tree.height := by
  induction tree with
  | nil => rfl
  | node l v height reach r leftIh rightIh =>
    obtain ⟨heightEq, _, _, _, okL, okR⟩ := ok
    rw [depth, leftIh okL, rightIh okR, height_node, heightEq]

theorem WellFormed.balanced (ok : tree.WellFormed measure) : tree.Balanced := by
  induction tree with
  | nil => trivial
  | node l v height reach r leftIh rightIh =>
    obtain ⟨heightEq, _, lowL, lowR, okL, okR⟩ := ok
    rw [Balanced, okL.depth_eq, okR.depth_eq]
    exact ⟨heightEq, lowL, lowR, leftIh okL, rightIh okR⟩

theorem reachWith_greatest (greatest : IsGreatest measures bound) (exactly : tree.ReachExact measure) :
    IsGreatest (measures ∪ {m | ∃ a ∈ tree.flatten, measure a = m}) (reachWith bound tree) := by
  cases tree with
  | nil => simpa [flatten, reachWith] using greatest
  | node l v height reach r => exact greatest.union exactly.1

theorem WellFormed.reachExact (ok : tree.WellFormed measure) : tree.ReachExact measure := by
  induction tree with
  | nil => trivial
  | node l v height reach r leftIh rightIh =>
    obtain ⟨_, reachEq, _, _, okL, okR⟩ := ok
    refine ⟨?_, leftIh okL, rightIh okR⟩
    have whole := reachWith_greatest (reachWith_greatest (isGreatest_singleton (a := measure v)) (leftIh okL)) (rightIh okR)
    rw [reachEq]
    refine (congrArg (IsGreatest · _) ?_).mp whole
    simp only [flatten]
    aesop

theorem WellFormed.le_reach {v : α} {height : Nat} {reach : β} (ok : (AvlTree.node l v height reach r).WellFormed measure) {a : α}
    (mem : a ∈ (AvlTree.node l v height reach r).flatten) : measure a ≤ reach :=
  ok.reachExact.1.2 ⟨a, mem, rfl⟩

/-- A tree of height `h` has at least `fib (h + 2) - 1` nodes. -/
theorem WellFormed.fib_le (ok : tree.WellFormed measure) : Nat.fib (tree.height + 2) ≤ tree.flatten.length + 1 := by
  induction tree with
  | nil => simp [flatten]
  | node l v height reach r leftIh rightIh =>
    obtain ⟨heightEq, _, _, _, okL, okR⟩ := ok
    have leftSize := leftIh okL
    have rightSize := rightIh okR
    have sum : Nat.fib (height + 2) ≤ Nat.fib (l.height + 2) + Nat.fib (r.height + 2) := by
      rcases le_total l.height r.height with ord | ord
      · rw [heightEq, max_eq_right ord, add_comm 1, Nat.fib_add_two]
        exact Nat.add_le_add (Nat.fib_mono (by omega)) le_rfl
      · rw [heightEq, max_eq_left ord, add_comm 1, Nat.fib_add_two, add_comm]
        exact Nat.add_le_add le_rfl (Nat.fib_mono (by omega))
    rw [height_node, flatten, length_append, length_cons]
    omega

end

theorem find?_least {l : List α} {p : α → Bool} {pre : α → α → Bool} {a : α} (asymm : ∀ a b, pre a b → pre b a = false)
    (sorted : l.Pairwise fun a b => pre a b = true) : l.find? p = some a ↔ a ∈ l ∧ p a ∧ ∀ b ∈ l, p b → b = a ∨ pre a b := by
  induction l with
  | nil => simp
  | cons head tail ih =>
    obtain ⟨least, rest⟩ := pairwise_cons.mp sorted
    rw [find?_cons]
    split
    next here =>
      rw [Option.some_inj]
      constructor
      · rintro rfl
        exact ⟨.head _, here, forall_mem_cons.mpr ⟨fun _ => .inl rfl, fun b mem _ => .inr (least b mem)⟩⟩
      rintro ⟨mem, _, first⟩
      rcases mem_cons.mp mem with eq | mem
      · exact eq.symm
      refine (first head (.head _) here).resolve_right fun less => ?_
      rw [asymm head a (least a mem)] at less
      cases less
    next out =>
      rw [ih rest]
      constructor
      · rintro ⟨mem, holds, first⟩
        exact ⟨.tail _ mem, holds, forall_mem_cons.mpr ⟨fun yes => absurd yes (by simp [out]), first⟩⟩
      rintro ⟨mem, holds, first⟩
      refine ⟨(mem_cons.mp mem).resolve_left fun eq => ?_, holds, (forall_mem_cons.mp first).2⟩
      rw [eq, out] at holds
      cases holds

end AvlTree
end BoarOS.Data
