import Mathlib.Logic.Relation
import BoarOS.Data.Outcome

namespace BoarOS.PathResolution

/-! # Path resolution

`resolve_object` walks a text over path objects, and the text changes as links are expanded.
The answers of the file systems are parameters of the tree, and so are their failures.
-/

open Relation (ReflTransGen TransGen)

abbrev Text := List Char

inductive Error where
  | enoent | enotdir | einval | enametoolong | eloop | ebusy | eisdir
  | backend (code : Nat)
deriving DecidableEq

inductive Kind where
  | directory | symlink | other
deriving DecidableEq

inductive TrailingPolicy where
  | nofollow | follow | preserve | create
deriving DecidableEq

/-- A tree of mounts, each covering a path of another one, and of directories in them. -/
structure Tree (Path Mount : Type) where
  parent : Path → Option Path
  mount : Path → Mount
  kind : Path → Kind
  unlinked : Path → Bool
  coveredPath : Mount → Option Path
  mountedHere : Path → Option Mount
  rootPath : Mount → Path
  quiescing : Mount → Bool
  acquire : Path → Except Error Unit
  permission : Path → Except Error Unit
  select : Path → Bool → Except Error Unit
  lookup : Path → Text → Except Error Path
  readlink : Path → Except Error Text
  depth : Mount → Nat
  deepest : Nat
  depth_le : ∀ m, depth m ≤ deepest
  covered_depth : ∀ m p, coveredPath m = some p → depth (mount p) < depth m
  mounted_root : ∀ p m, mountedHere p = some m → coveredPath m = some p ∧ mount (rootPath m) = m ∧ parent (rootPath m) = none
  lookup_parent : ∀ p name child, lookup p name = .ok child → parent child = some p

structure Request where
  followFinal : Bool
  /-- With a place for the missing name. -/
  allowMissingFinal : Bool
  allowMissingTrailing : Bool
  trailing : TrailingPolicy
  finalWrite : Bool

namespace Tree
variable {Path Mount : Type} (t : Tree Path Mount)

section
variable [DecidableEq Path] [DecidableEq Mount]

end

/-- The root of a mount lies on the path the mount covers. -/
def Covers (p q : Path) : Prop := t.parent p = none ∧ t.coveredPath (t.mount p) = some q
def Up (p q : Path) : Prop := t.parent p = some q ∨ t.Covers p q
variable {t} {r : Request} {root current p q : Path} {name rest : Text}

theorem Up.unique (up : t.Up p q) (also : t.Up p current) : q = current := by
  unfold Up Covers at up also
  grind

variable [DecidableEq Path] [DecidableEq Mount]

end Tree

/-! ## A mount on the root

Path 2 is the root of a mount on path 1, a directory in the root path 0 of the first mount. -/

end BoarOS.PathResolution
