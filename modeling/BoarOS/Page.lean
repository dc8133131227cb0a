import Mathlib.Algebra.Ring.Nat
import Mathlib.Logic.Function.Basic

namespace BoarOS

/-- `BOAROS_PAGE_SHIFT` of a supported build: 12 on RISC-V, 14 on LoongArch. -/
class PageGeometry where
  shift : Nat
  supported : shift = 12 ∨ shift = 14

@[reducible] def PageGeometry.riscv : PageGeometry := ⟨12, .inl rfl⟩

section
variable [PageGeometry]

def pageShift : Nat := PageGeometry.shift
def pageSize : Nat := 2 ^ pageShift
def pageMask : Nat := pageSize - 1

theorem pageSize_cases : pageSize = 4096 ∨ pageSize = 16384 := by
  rcases PageGeometry.supported with lt | large
  · exact .inl (by simp [pageSize, pageShift, lt, Nat.reducePow])
  · exact .inr (by simp [pageSize, pageShift, large, Nat.reducePow])

theorem pageSize_pos : 0 < pageSize := by
  rcases pageSize_cases with size | size <;> omega

end
end BoarOS
