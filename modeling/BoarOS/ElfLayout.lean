import BoarOS.Page
import Mathlib.Data.List.Basic
import Mathlib.Data.Nat.Bitwise
import Mathlib.Order.MinMax

namespace BoarOS.ElfLayout
open List

/-! # The layout of an executable image

How `kernel_elf_image_build` selects addresses. A sum or a difference that would wrap stops
the model with `wraps`; the checks that place nothing are left out.
-/

def uint64Max : Nat := 2 ^ 64 - 1

inductive Stop where
  | malformed | addressSpace | wraps

def plus (a b : Nat) : Except Stop Nat := if a + b ≤ uint64Max then .ok (a + b) else .error .wraps
def minus (a b : Nat) : Except Stop Nat := if b ≤ a then .ok (a - b) else .error .wraps
def require (p : Prop) [Decidable p] : Except Stop Unit := if p then .ok () else .error .addressSpace

def randomPages (bits : Nat) : Option Nat → Except Stop Nat
  | some value => .ok (value % 2 ^ bits)
  | none => .error .addressSpace

/-- The selection does not wrap, and what it selects is as it should be. -/
def Meets {α : Type} (x : Except Stop α) (P : α → Prop) : Prop := x ≠ .error .wraps ∧ ∀ a, x = .ok a → P a

section
variable {α β : Type} {P : α → Prop} {Q : β → Prop} {a b : Nat}

theorem meets_pure (ok : P v) : Meets (pure v) P := ⟨nofun, fun _ eq => by cases eq; exact ok⟩

theorem Meets.bind (first : Meets x P) (rest : ∀ a, P a → Meets (f a) Q) : Meets (x >>= f) Q := by
  cases x with
  | error stop => exact ⟨fun eq => first.1 (by cases eq; rfl), nofun⟩
  | ok v => exact rest v (first.2 v rfl)

theorem Meets.imp (ok : Meets x P) (implies : ∀ a, P a → R a) : Meets x R := ⟨ok.1, fun a eq => implies a (ok.2 a eq)⟩

theorem Meets.self (ok : Meets x P) : Meets x fun a => P a ∧ x = .ok a := ⟨ok.1, fun a eq => ⟨ok.2 a eq, eq⟩⟩

theorem Meets.mapM {o : Option α} {f : α → Except Stop β} {R : α → β → Prop} (each : ∀ a ∈ o, Meets (f a) (R a)) :
    Meets (o.mapM f) fun r => ∀ x ∈ r, ∃ a ∈ o, R a x := by
  cases o with
  | none => exact meets_pure nofun
  | some a =>
    exact (each a rfl).bind fun b met => meets_pure fun x eq => by cases eq; exact ⟨a, rfl, met⟩

theorem meets_plus (fits : a + b ≤ uint64Max) : Meets (plus a b) (· = a + b) := by
  rw [plus, if_pos fits]
  exact meets_pure rfl

theorem meets_minus (fits : b ≤ a) : Meets (minus a b) (· = a - b) := by
  rw [minus, if_pos fits]
  exact meets_pure rfl

theorem meets_require [Decidable p] : Meets (require p) fun _ => p := by
  unfold require
  split
  · exact meets_pure ‹_›
  · exact ⟨nofun, nofun⟩

theorem meets_random : Meets (randomPages bits draw) fun v => v = draw.getD 0 % 2 ^ bits ∧ v < 2 ^ bits := by
  cases draw with
  | none => exact ⟨nofun, nofun⟩
  | some v => exact meets_pure ⟨rfl, Nat.mod_lt _ (Nat.two_pow_pos bits)⟩

end

theorem power_of_two (pos : 0 < a) (single : a &&& (a - 1) = 0) : ∃ k, a = 2 ^ k := by
  refine ⟨a.log2, ?_⟩
  by_contra ne
  have low := Nat.log2_self_le pos.ne'
  have high := Nat.lt_log2_self (n := a)
  have both : (a &&& (a - 1)).testBit a.log2 = true := by
    rw [Nat.testBit_and, Nat.testBit_of_two_pow_le_and_two_pow_add_one_gt low high,
      Nat.testBit_of_two_pow_le_and_two_pow_add_one_gt (by omega) (by omega)]
    rfl
  simp [single] at both

section
variable [PageGeometry]

/-- `ARCH_MMU_USER_LIMIT` on RISC-V and on LoongArch. -/
def userLimit : Nat := if pageShift = 12 then 2 ^ 38 else 2 ^ 47
def stackReserve : Nat := 0x800000
def mmapGap : Nat := 0x8000000

/-- An accepted source: its runs are whole pages, and the alignments those of its loads. -/
structure Source where
  shared : Bool
  runs : List (Nat × Nat)
  alignments : List Nat
  whole : ∀ run ∈ runs, pageSize ∣ run.1 ∧ pageSize ∣ run.2 ∧ run.2 ≤ uint64Max
  fits : ∀ a ∈ alignments, a ≤ uint64Max

structure Bounds where
  (minimum maximum alignment : Nat)

structure Image where
  (bias start stop : Nat)

structure Stack where
  (top base softBase guard mmapBase : Nat)

structure Layout where
  stack : Stack
  main : Image
  interpreter : Option Image
  (brkStart brkLimit vdso : Nat)

def sourceBounds (s : Source) : Except Stop Bounds :=
  let low := s.runs.foldl (fun low run => min run.1 low) uint64Max
  let high := s.runs.foldl (fun high run => max run.2 high) 0
  let alignment := s.alignments.foldl (fun a b => max b a) pageSize
  if (∃ run ∈ s.runs, run.2 ≤ run.1) ∨ low = uint64Max ∨ high ≤ low ∨ alignment &&& (alignment - 1) ≠ 0 then .error .malformed
  else .ok ⟨low, high, alignment⟩

def placeStack (limit first second : Option Nat) : Except Stop Stack := do
  let limit := min (limit.getD stackReserve) stackReserve / pageSize * pageSize
  let random ← randomPages 18 first
  let top ← minus userLimit (random * pageSize)
  let top ← if top < stackReserve + pageSize + pageSize then minus userLimit (stackReserve + pageSize) else pure top
  let base ← minus top stackReserve
  let softBase ← minus top limit
  let guard ← minus base pageSize
  require (pageSize + mmapGap < guard)
  let below ← minus guard mmapGap
  let random := (second.map (· % 2 ^ 24)).getD 0
  let mmapBase ← minus below (if random > below / pageSize then 0 else random * pageSize)
  pure ⟨top, base, softBase, guard, mmapBase⟩

/-- The multiple of the alignment that a random value selects between two others. -/
def chooseSlot (lower upper alignment random : Nat) : Except Stop Nat := do
  require (lower ≤ upper)
  let slots := (← minus upper lower) / alignment
  let random := if slots ≠ uint64Max then random % (slots + 1) else random
  require (random ≤ slots ∧ random ≤ (uint64Max - lower) / alignment)
  pure (random * alignment)

def roundUp (delta alignment : Nat) : Except Stop Nat := do
  require (delta ≤ uint64Max - (alignment - 1))
  let sum ← plus delta alignment
  pure ((← minus sum 1) / alignment * alignment)

def choosePieBias (b : Bounds) (ceiling : Nat) (draw : Option Nat) : Except Stop Nat := do
  require (b.minimum ≤ b.maximum ∧ b.maximum ≤ ceiling)
  let random ← randomPages 24 draw
  let lower ← roundUp (← minus (max (userLimit / 3 * 2) b.minimum) b.minimum) b.alignment
  let upper := (← minus ceiling b.maximum) / b.alignment * b.alignment
  plus lower (← chooseSlot lower upper b.alignment random)

def chooseInterpreterBias (b : Bounds) (upper lower : Nat) (draw : Option Nat) : Except Stop Nat := do
  require (b.minimum ≤ b.maximum ∧ lower < upper ∧ b.maximum ≤ upper)
  let random ← randomPages 24 draw
  let lower ← (if lower ≤ b.minimum then pure 0 else minus lower b.minimum >>= (roundUp · b.alignment))
  let upper := (← minus upper b.maximum) / b.alignment * b.alignment
  minus upper (← chooseSlot lower upper b.alignment random)

def place (b : Bounds) (guard bias : Nat) : Except Stop Image := do
  require (bias ≤ uint64Max - b.minimum ∧ bias ≤ uint64Max - b.maximum)
  let stop ← plus bias b.maximum
  require (stop < guard)
  let start ← plus bias b.minimum
  pure ⟨bias, start, stop⟩

/-- The main image leaves a page for the heap, and room for a shared interpreter. -/
def placeMain (stack : Stack) (s : Source) (b : Bounds) (interpreter : Option (Source × Bounds)) (draw : Option Nat) :
    Except Stop Image := do
  let ceiling ← minus stack.mmapBase pageSize
  let ceiling ← (match interpreter with
    | some (⟨true, _, _, _, _⟩, i) => do
        let reserve ← minus i.maximum i.minimum
        require (reserve ≤ uint64Max - i.alignment ∧ reserve + i.alignment < ceiling)
        minus ceiling (reserve + i.alignment)
    | _ => pure ceiling)
  let bias ← (if s.shared then choosePieBias b ceiling draw else pure 0)
  place b stack.guard bias

def placeInterpreter (stack : Stack) (main : Image) (s : Source) (b : Bounds) (draw : Option Nat) : Except Stop Image := do
  let bias ← (if s.shared then plus main.stop pageSize >>= (chooseInterpreterBias b stack.mmapBase · draw) else pure 0)
  let image ← place b stack.guard bias
  require (¬ (main.start < image.stop ∧ image.start < main.stop))
  pure image

def heapLimit (mmapBase : Nat) (main : Image) : Option Image → Nat
  | some image => if main.stop < image.start ∧ image.start < mmapBase then image.start else mmapBase
  | none => mmapBase

def placeBrk (mmapBase : Nat) (main : Image) (interpreter : Option Image) (draw : Option Nat) : Except Stop (Nat × Nat) := do
  let limit := heapLimit mmapBase main interpreter
  require (main.stop < limit)
  let random ← randomPages 18 draw
  let room ← minus (← minus limit main.stop) 1
  let random := random % (room / pageSize + 1)
  require (main.stop ≤ uint64Max - random * pageSize)
  let start := (← plus main.stop (random * pageSize)) / pageSize * pageSize
  let start := if main.stop ≤ start then start
    else if uint64Max - pageMask < main.stop then 0 else (main.stop + pageMask) / pageSize * pageSize
  require (pageSize ≤ start ∧ start < limit ∧ start < mmapBase)
  pure (start, limit)

def blocked (upper : Nat) (image : Image) : Option (Nat × Nat) :=
  if image.start < upper ∧ pageSize < image.stop ∧ max image.start pageSize < min image.stop upper then
    some (max image.start pageSize, min image.stop upper)
  else none

def inOrder : List (Nat × Nat) → List (Nat × Nat)
  | [first, second] => if second.1 < first.1 then [second, first] else [first, second]
  | ranges => ranges

def gapPages (cursor start : Nat) : Nat := if cursor < start then (start - cursor) / pageSize else 0

def freePages (upper : Nat) : Nat → List (Nat × Nat) → Nat
  | cursor, [] => gapPages cursor upper
  | cursor, range :: rest => gapPages cursor range.1 + freePages upper (max range.2 cursor) rest

def freePage (upper : Nat) : Nat → Nat → List (Nat × Nat) → Except Stop Nat
  | cursor, random, [] => do
      require (random < gapPages cursor upper)
      plus cursor (random * pageSize)
  | cursor, random, range :: rest =>
    if random < gapPages cursor range.1 then plus cursor (random * pageSize)
    else freePage upper (max range.2 cursor) (random - gapPages cursor range.1) rest

def chooseVdso (upper : Nat) (images : List Image) (draw : Option Nat) : Except Stop Nat := do
  require (pageSize + pageSize < upper)
  let random ← randomPages 24 draw
  let ranges := inOrder (images.filterMap (blocked upper))
  require (freePages upper pageSize ranges ≠ 0)
  freePage upper pageSize (random % freePages upper pageSize ranges) ranges

def select (main : Source) (interpreter : Option Source) (stackLimit : Option Nat) (draws : Nat → Option Nat) : Except Stop Layout := do
  let b ← sourceBounds main
  let i ← interpreter.mapM fun s => do
    let b ← sourceBounds s
    pure (s, b)
  let stack ← placeStack stackLimit (draws 0) (draws 1)
  let image ← placeMain stack main b i (draws 2)
  let linker ← i.mapM fun i => placeInterpreter stack image i.1 i.2 (draws 3)
  let (start, limit) ← placeBrk stack.mmapBase image linker (draws 4)
  let vdso ← chooseVdso stack.mmapBase (image :: linker.toList) (draws 5)
  pure ⟨stack, image, linker, start, if start < vdso ∧ vdso < limit then vdso else limit, vdso⟩

/-- The page above the main image at which a draw starts the heap. -/
def heapPage (mmapBase : Nat) (main : Image) (interpreter : Option Image) (draw : Nat) : Nat :=
  main.stop + draw % 2 ^ 18 % ((heapLimit mmapBase main interpreter - main.stop - 1) / pageSize + 1) * pageSize

/-- How many free pages lie below an address. -/
def pagesBelow (address : Nat) : Nat → List (Nat × Nat) → Nat
  | cursor, [] => gapPages cursor address
  | cursor, range :: rest =>
    if address ≤ range.1 then gapPages cursor address
    else gapPages cursor range.1 + pagesBelow address (max range.2 cursor) rest

/-- The draws put the heap behind an interpreter that adjoins the main image, and do not give the VDSO the free page at
which the heap starts. -/
structure Clear (mmapBase : Nat) (main : Image) (interpreter : Option Image) (heapDraw vdsoDraw : Nat) : Prop where
  adjoining : ∀ i ∈ interpreter, i.start = main.stop → i.stop ≤ heapPage mmapBase main interpreter heapDraw
  vdso : let ranges := inOrder ((main :: interpreter.toList).filterMap (blocked mmapBase))
    vdsoDraw % 2 ^ 24 % freePages mmapBase pageSize ranges ≠
      pagesBelow (heapPage mmapBase main interpreter heapDraw) pageSize ranges

theorem geometry : pageSize = 4096 ∧ userLimit = 2 ^ 38 ∨ pageSize = 16384 ∧ userLimit = 2 ^ 47 := by
  unfold pageSize userLimit pageShift
  rcases PageGeometry.supported with shift | shift <;> simp [shift]

theorem userLimit_le : userLimit ≤ uint64Max := by rcases geometry with ⟨_, lim⟩ | ⟨_, lim⟩ <;> rw [lim] <;> decide

structure Stack.Ok (k : Stack) : Prop where
  aligned : pageSize ∣ k.top ∧ pageSize ∣ k.guard ∧ pageSize ∣ k.mmapBase
  order : pageSize ≤ k.mmapBase ∧ k.mmapBase ≤ k.guard ∧ k.guard < k.top ∧ k.top ≤ userLimit

theorem placeStack_meets : Meets (placeStack lim first snd) Stack.Ok := by
  have low : (snd.map (· % 2 ^ 24)).getD 0 < 2 ^ 24 := by cases snd <;> simp [Nat.mod_lt]
  have most := Nat.div_mul_le_self (min (lim.getD stackReserve) stackReserve) pageSize
  dsimp only [placeStack]
  generalize min (lim.getD stackReserve) stackReserve / pageSize * pageSize = l at most ⊢
  have lt : l ≤ stackReserve := most.trans (min_le_right _ _)
  unfold stackReserve at lt ⊢
  unfold mmapGap
  rcases geometry with ⟨page, most⟩ | ⟨page, most⟩
  all_goals
    simp only [page]
    refine meets_random.bind fun random _ => (meets_minus (by omega)).bind fun top _ => ?_
    rw [if_neg (by omega)]
    refine (meets_minus (by omega)).bind fun base _ => (meets_minus (by omega)).bind fun soft _ =>
      (meets_minus (by omega)).bind fun guard _ => meets_require.bind fun _ _ => (meets_minus (by omega)).bind fun lo _ =>
      (meets_minus (by split <;> omega)).bind fun mmapBase isBase => ?_
    refine meets_pure ⟨?_, ?_⟩ <;> simp only [page, most] <;> split at isBase <;> omega

structure Bounds.Ok (b : Bounds) : Prop where
  whole : pageSize ∣ b.minimum ∧ pageSize ∣ b.maximum
  order : b.minimum < b.maximum ∧ b.maximum ≤ uint64Max
  alignment : pageSize ∣ b.alignment ∧ 0 < b.alignment ∧ b.alignment ≤ 2 ^ 63

variable {b : Bounds} {k : Stack} {draw : Option Nat} {main : Image}

omit [PageGeometry] in
theorem chooseSlot_meets : Meets (chooseSlot lower upper alignment random) fun step => alignment ∣ step ∧ lower + step ≤ upper := by
  refine meets_require.bind fun _ ord => (meets_minus ord).bind fun room eq => meets_require.bind fun _ within =>
    meets_pure ⟨dvd_mul_left _ _, ?_⟩
  have := (Nat.mul_le_mul_right alignment within.1).trans (Nat.div_mul_le_self room alignment)
  omega

theorem roundUp_meets (ok : b.Ok) (low : delta ≤ 2 ^ 62) : Meets (roundUp delta b.alignment) (b.alignment ∣ ·) := by
  have := ok.alignment
  refine meets_require.bind fun _ _ => (meets_plus ?_).bind fun sum eq => (meets_minus (by omega)).bind fun _ _ =>
    meets_pure (dvd_mul_left _ _)
  unfold uint64Max
  omega

theorem choosePieBias_meets (ok : b.Ok) (low : ceiling ≤ uint64Max) : Meets (choosePieBias b ceiling draw) (b.alignment ∣ ·) := by
  refine meets_require.bind fun _ ord => meets_random.bind fun random _ => (meets_minus (by omega)).bind fun delta eq =>
    (roundUp_meets ok ?_).bind fun lo aligned => (meets_minus ord.2).bind fun upper _ =>
    chooseSlot_meets.bind fun step within => ?_
  · rcases geometry with ⟨_, most⟩ | ⟨_, most⟩ <;> omega
  have := Nat.div_mul_le_self upper b.alignment
  refine (meets_plus (by omega)).imp fun bias eq => ?_
  rw [eq]
  exact Nat.dvd_add aligned within.1

theorem chooseInterpreterBias_meets (ok : b.Ok) (low : lo ≤ 2 ^ 62) : Meets (chooseInterpreterBias b upper lo draw) (b.alignment ∣ ·) := by
  refine meets_require.bind fun _ ord => meets_random.bind fun random _ =>
    Meets.bind (P := (b.alignment ∣ ·)) ?_ fun lo _ => (meets_minus ord.2.2).bind fun upper _ =>
    chooseSlot_meets.bind fun step within => (meets_minus (by omega)).imp fun bias eq => ?_
  · split
    · exact meets_pure (Nat.dvd_zero _)
    · exact (meets_minus (by omega)).bind fun delta _ => roundUp_meets ok (by omega)
  · rw [eq]
    exact Nat.dvd_sub (dvd_mul_left _ _) within.1

structure Image.Ok (i : Image) (guard : Nat) : Prop where
  whole : pageSize ∣ i.start ∧ pageSize ∣ i.stop
  order : i.start < i.stop ∧ i.stop < guard

theorem place_meets (ok : b.Ok) (aligned : b.alignment ∣ bias) :
    Meets (place b k.guard bias) fun i => i.Ok k.guard ∧ b.alignment ∣ i.bias := by
  have ord := ok.order
  have page := ok.alignment.1.trans aligned
  refine meets_require.bind fun _ _ => (meets_plus (by omega)).bind fun stop isStop => meets_require.bind fun _ lo =>
    (meets_plus (by omega)).bind fun start isStart => meets_pure ⟨⟨?_, by dsimp only; omega⟩, aligned⟩
  rw [isStop, isStart]
  exact ⟨Nat.dvd_add page ok.whole.1, Nat.dvd_add page ok.whole.2⟩

theorem placeMain_meets (stack : k.Ok) (ok : b.Ok) (rest : ∀ i ∈ interpreter, i.2.Ok) :
    Meets (placeMain k s b interpreter draw) fun i => i.Ok k.guard ∧ b.alignment ∣ i.bias := by
  have ord := stack.order
  have most := userLimit_le
  refine (meets_minus ord.1).bind fun ceiling _ => Meets.bind (P := (· ≤ uint64Max)) ?_ fun low lo =>
    Meets.bind (P := (b.alignment ∣ ·)) ?_ fun bias aligned => place_meets ok aligned
  · split
    · have : _ ∧ _ := (rest _ rfl).order
      dsimp only at this
      exact (meets_minus (by omega)).bind fun reserve _ => meets_require.bind fun _ _ =>
        (meets_minus (by omega)).imp fun _ _ => by omega
    · exact meets_pure (by omega)
  · split
    · exact choosePieBias_meets ok lo
    · exact meets_pure (Nat.dvd_zero _)

theorem placeInterpreter_meets (stack : k.Ok) (lo : main.stop < k.guard) (ok : b.Ok) : Meets (placeInterpreter k main s b draw) fun i =>
      (i.Ok k.guard ∧ (main.stop ≤ i.start ∨ i.stop ≤ main.start)) ∧ b.alignment ∣ i.bias := by
  have ord := stack.order
  refine Meets.bind (P := (b.alignment ∣ ·)) ?_ fun bias aligned =>
    (place_meets ok aligned).bind fun image ⟨placed, whole⟩ =>
    meets_require.bind fun _ apart => meets_pure ⟨⟨placed, by omega⟩, whole⟩
  split
  · rcases geometry with ⟨_, _⟩ | ⟨_, _⟩
    all_goals exact (meets_plus (by unfold uint64Max; omega)).bind fun lower _ => chooseInterpreterBias_meets ok (by omega)
  · exact meets_pure (Nat.dvd_zero _)

theorem placeBrk_meets (stack : k.Ok) (whole : pageSize ∣ main.stop) (rest : ∀ i ∈ interpreter, pageSize ∣ i.start) :
    Meets (placeBrk k.mmapBase main interpreter draw) fun r => pageSize ∣ r.1 ∧ pageSize ∣ r.2 ∧ main.stop ≤ r.1 ∧ r.1 < r.2 ∧
      (r.2 ≤ k.mmapBase ∧ ∀ i ∈ interpreter, main.stop < i.start → r.2 ≤ i.start) ∧ pageSize ≤ r.1 ∧
      r.1 = heapPage k.mmapBase main interpreter (draw.getD 0) := by
  unfold placeBrk heapPage
  have bound : pageSize ∣ heapLimit k.mmapBase main interpreter ∧ heapLimit k.mmapBase main interpreter ≤ k.mmapBase ∧
      ∀ i ∈ interpreter, main.stop < i.start → heapLimit k.mmapBase main interpreter ≤ i.start := by
    have := stack.aligned.2.2
    cases interpreter with
    | none => exact ⟨this, le_rfl, nofun⟩
    | some image =>
      have := rest image rfl
      dsimp only [heapLimit]
      split
      · exact ⟨this, by omega, fun i eq _ => by cases eq; rfl⟩
      · exact ⟨‹_›, le_rfl, fun i eq above => by cases eq; omega⟩
  generalize heapLimit k.mmapBase main interpreter = limit at bound ⊢
  have ord := stack.order
  rcases geometry with ⟨page, _⟩ | ⟨page, _⟩
  all_goals
    simp only [page] at *
    refine meets_require.bind fun _ lo => meets_random.bind fun random ⟨drawn, few⟩ => (meets_minus (by omega)).bind fun room isRoom =>
      (meets_minus (by omega)).bind fun room' isRoom' => ?_
    subst isRoom isRoom' drawn
    generalize held : draw.getD 0 % 2 ^ 18 % _ = pages
    have most := held ▸ Nat.mod_le (draw.getD 0 % 2 ^ 18) _
    refine meets_require.bind fun _ _ => (meets_plus ?_).bind fun start _ => meets_require.bind fun _ within => meets_pure ?_
    · unfold uint64Max
      omega
    refine ⟨?_, bound.1, ?_, within.2.1, bound.2, within.1, ?_⟩ <;> dsimp only <;> split <;> (try split) <;> omega

theorem sourceBounds_meets : Meets (sourceBounds s) Bounds.Ok := by
  have low := s.runs.foldlRecOn (motive := fun x => x = uint64Max ∨ pageSize ∣ x) (fun low run => min run.1 low) (.inl rfl)
    fun x ok run mem => by
      rcases min_choice run.1 x with eq | eq <;> rw [eq]
      exacts [.inr (s.whole run mem).1, ok]
  have high := s.runs.foldlRecOn (motive := fun x => pageSize ∣ x ∧ x ≤ uint64Max) (fun high run => max run.2 high)
    ⟨Nat.dvd_zero _, Nat.zero_le _⟩ fun x ok run mem => by
      rcases max_choice run.2 x with eq | eq <;> rw [eq]
      exacts [(s.whole run mem).2, ok]
  have most := s.alignments.foldlRecOn (motive := fun x => pageSize ≤ x ∧ x ≤ uint64Max) (fun a b => max b a)
    ⟨le_rfl, by rcases pageSize_cases with page | page <;> rw [page] <;> decide⟩ fun x ok a mem =>
      ⟨le_max_of_le_right ok.1, max_le (s.fits a mem) ok.2⟩
  have pos := pageSize_pos
  dsimp only [sourceBounds]
  split
  · exact ⟨nofun, nofun⟩
  rename_i valid
  simp only [not_or, not_not] at valid
  refine meets_pure ⟨⟨low.resolve_left valid.2.1, high.1⟩, ⟨not_le.mp valid.2.2.1, high.2⟩, ?_⟩
  obtain ⟨n, power⟩ := power_of_two (by omega) valid.2.2.2
  rw [power] at most ⊢
  have fits : n < 64 := (Nat.pow_lt_pow_iff_right (a := 2) (by decide)).mp (by unfold uint64Max at most; omega)
  exact ⟨Nat.pow_dvd_pow 2 ((Nat.pow_le_pow_iff_right (by decide)).mp most.1), Nat.two_pow_pos n,
    Nat.pow_le_pow_right (by decide) (Nat.le_of_lt_succ fits)⟩

theorem gap_fits (fits : random < gapPages cursor start) : cursor + random * pageSize + pageSize ≤ start := by
  unfold gapPages at fits
  rcases geometry with ⟨page, _⟩ | ⟨page, _⟩ <;> rw [page] at fits ⊢ <;> split at fits <;> omega

theorem gap_eq_iff (whole : pageSize ∣ cursor) (aligned : pageSize ∣ address) (le : cursor ≤ address) :
    cursor + random * pageSize = address ↔ random = gapPages cursor address := by
  unfold gapPages
  rcases geometry with ⟨page, _⟩ | ⟨page, _⟩ <;> rw [page] at whole aligned ⊢ <;> split <;> omega

theorem gap_lt_gap (whole : pageSize ∣ cursor) (aligned : pageSize ∣ address) (le : cursor ≤ address) (lt : address + pageSize ≤ start) :
    gapPages cursor address < gapPages cursor start := by
  unfold gapPages
  rcases geometry with ⟨page, _⟩ | ⟨page, _⟩ <;> rw [page] at whole aligned lt ⊢ <;> split <;> split <;> omega

/-- The page a draw gives, and which draw gives a page. -/
theorem freePage_meets {ranges : List (Nat × Nat)} (low : upper ≤ uint64Max) (whole : pageSize ∣ cursor)
    (sorted : ranges.Pairwise (·.1 ≤ ·.1)) (ok : ∀ r ∈ ranges, pageSize ∣ r.2 ∧ r.1 ≤ upper ∧ r.1 < r.2) :
    Meets (freePage upper cursor random ranges) fun v => (pageSize ∣ v ∧ cursor ≤ v ∧ v + pageSize ≤ upper ∧
      ∀ r ∈ ranges, v + pageSize ≤ r.1 ∨ r.2 ≤ v) ∧
      ∀ address, pageSize ∣ address → cursor ≤ address → (∀ r ∈ ranges, address + pageSize ≤ r.1 ∨ r.2 ≤ address) →
        (v = address ↔ random = pagesBelow address cursor ranges) := by
  induction ranges generalizing cursor random with
  | nil =>
    refine meets_require.bind fun _ fits => ?_
    have := gap_fits fits
    exact (meets_plus (by omega)).imp fun v eq =>
      ⟨⟨eq ▸ Nat.dvd_add whole (Nat.dvd_mul_left _ _), by omega, by omega, nofun⟩,
        fun address aligned le _ => eq ▸ gap_eq_iff whole aligned le⟩
  | cons range rest induction =>
    rw [pairwise_cons] at sorted
    have here := ok range mem_cons_self
    have pos := pageSize_pos
    unfold freePage pagesBelow
    split
    next fits =>
      have := gap_fits fits
      refine (meets_plus (by omega)).imp fun v eq =>
        ⟨⟨eq ▸ Nat.dvd_add whole (Nat.dvd_mul_left _ _), by omega, by omega, fun r mem => .inl ?_⟩, fun address aligned le apart => ?_⟩
      · rcases mem_cons.mp mem with rfl | later
        · omega
        have := sorted.1 r later
        omega
      · rw [eq]
        split
        · exact gap_eq_iff whole aligned le
        · exact iff_of_false (by omega) (by omega)
    next beyond =>
    refine (induction (by rcases max_choice range.2 cursor with eq | eq <;> rw [eq] <;> tauto) sorted.2
      fun r later => ok r (.tail _ later)).imp fun v ⟨⟨aligned, above, lo, apart⟩, drawn⟩ =>
        ⟨⟨aligned, by omega, lo, fun r mem => ?_⟩, fun address whole' le apart' => ?_⟩
    · rcases mem_cons.mp mem with rfl | later
      · exact .inr (by omega)
      · exact apart r later
    have side := apart' range mem_cons_self
    split
    · have before : address + pageSize ≤ range.1 := by omega
      have less := gap_lt_gap whole whole' le before
      exact iff_of_false (by omega) (by omega)
    · rw [drawn address whole' (by omega) fun r later => apart' r (.tail _ later)]
      omega

omit [PageGeometry] in
theorem inOrder_spec : ∀ {l : List (Nat × Nat)}, l.length ≤ 2 → (inOrder l).Pairwise (·.1 ≤ ·.1) ∧ ∀ r, r ∈ inOrder l ↔ r ∈ l
  | [], _ => ⟨.nil, fun _ => .rfl⟩
  | [a], _ => ⟨pairwise_singleton _ _, fun _ => .rfl⟩
  | [a, b], _ => by
      simp only [inOrder]
      split
      · exact ⟨by simp; omega, fun r => by simp [or_comm]⟩
      · exact ⟨by simp; omega, fun r => .rfl⟩

theorem chooseVdso_meets (stack : k.Ok) (few : images.length ≤ 2)
    (ok : ∀ i ∈ images, pageSize ∣ i.stop ∧ i.start < i.stop) : Meets (chooseVdso k.mmapBase images draw) fun v =>
      (pageSize ∣ v ∧ v + pageSize ≤ k.mmapBase ∧ ∀ i ∈ images, v + pageSize ≤ i.start ∨ i.stop ≤ v) ∧
      ∀ address, pageSize ∣ address → pageSize ≤ address → (∀ i ∈ images, address + pageSize ≤ i.start ∨ i.stop ≤ address) →
        (v = address ↔ let ranges := inOrder (images.filterMap (blocked k.mmapBase))
          draw.getD 0 % 2 ^ 24 % freePages k.mmapBase pageSize ranges = pagesBelow address pageSize ranges) := by
  obtain ⟨sorted, eq⟩ := inOrder_spec ((images.length_filterMap_le (blocked k.mmapBase)).trans few)
  have most := userLimit_le
  have ord := stack.order
  -- what is blocked is an image cut to the window
  have cut {r} (mem : r ∈ inOrder (images.filterMap (blocked k.mmapBase))) : ∃ i ∈ images,
      r = (max i.start pageSize, min i.stop k.mmapBase) ∧ max i.start pageSize < min i.stop k.mmapBase := by
    obtain ⟨i, mine, cut⟩ := mem_filterMap.mp ((eq r).mp mem)
    unfold blocked at cut
    split at cut <;> cases cut
    next inside => exact ⟨i, mine, rfl, inside.2.2⟩
  refine meets_require.bind fun _ wide => meets_random.bind fun random ⟨drawn, _⟩ => meets_require.bind fun _ _ =>
    (freePage_meets (by omega) (dvd_refl _) sorted fun r mem => ?_).imp fun v ⟨⟨whole, above, lo, apart⟩, exactly⟩ =>
      ⟨⟨whole, lo, fun i mem => ?_⟩, fun address aligned le out => ?_⟩
  · obtain ⟨i, mine, rfl, less⟩ := cut mem
    refine ⟨?_, by simp only; omega, less⟩
    rcases min_choice i.stop k.mmapBase with least | least <;> simp only [least]
    · exact (ok i mine).1
    · exact stack.aligned.2.2
  · have := ok i mem
    have := pageSize_pos
    by_cases cut : i.start < k.mmapBase ∧ pageSize < i.stop ∧ max i.start pageSize < min i.stop k.mmapBase
    · have := apart _ ((eq _).mpr (mem_filterMap.mpr ⟨i, mem, if_pos cut⟩))
      omega
    · omega
  · subst drawn
    refine exactly address aligned le fun r mem => ?_
    obtain ⟨i, mine, rfl, less⟩ := cut mem
    have := out i mine
    omega

theorem heap_clipped (startWhole : pageSize ∣ start) (limitWhole : pageSize ∣ lim)
    (whole : pageSize ∣ vdso) (lt : start < lim) (limited : (if start < vdso ∧ vdso < lim then vdso else lim) = last) :
    pageSize ∣ last ∧ start < last ∧ last ≤ lim ∧ (vdso = start ∨ last ≤ vdso ∨ vdso + pageSize ≤ start) := by
  split at limited <;> subst limited
  · exact ⟨whole, by omega, by omega, .inr (.inl le_rfl)⟩
  refine ⟨limitWhole, lt, le_rfl, ?_⟩
  by_cases less : vdso < start
  · have := Nat.le_of_dvd (by omega) (Nat.dvd_sub startWhole whole)
    omega
  · -- The source clips only above the start of the heap, so the VDSO may be exactly there.
    omega

/-- The images, the VDSO, the heap, and the stack with its guard page. -/
def Layout.regions (l : Layout) : List (Nat × Nat) :=
  [(l.main.start, l.main.stop), (l.vdso, l.vdso + pageSize), (l.brkStart, l.brkLimit), (l.stack.guard, l.stack.top)] ++
    l.interpreter.toList.map fun i => (i.start, i.stop)

def Layout.Apart (l : Layout) : Prop := l.regions.Pairwise fun r q => r.2 ≤ q.1 ∨ q.2 ≤ r.1

theorem select_apart (main : Source) (interpreter : Option Source) (stackLimit : Option Nat) (draws : Nat → Option Nat) :
    Meets (select main interpreter stackLimit draws) fun l =>
      (∀ r ∈ l.regions, pageSize ∣ r.1 ∧ pageSize ∣ r.2 ∧ r.1 < r.2 ∧ r.2 ≤ userLimit) ∧
      (l.Apart ↔ Clear l.stack.mmapBase l.main l.interpreter ((draws 4).getD 0) ((draws 5).getD 0)) ∧
      (∀ b, sourceBounds main = .ok b → b.alignment ∣ l.main.bias) ∧
      ∀ s ∈ interpreter, ∀ b, sourceBounds s = .ok b → ∀ i ∈ l.interpreter, b.alignment ∣ i.bias := by
  have pos := pageSize_pos
  refine sourceBounds_meets.self.bind fun b ⟨ok, bounds⟩ => ?_
  refine (Meets.mapM (R := fun s x => x.2.Ok ∧ sourceBounds s = .ok x.2) fun s _ =>
    sourceBounds_meets.self.bind fun _ fine => meets_pure fine).bind fun rest old => ?_
  refine placeStack_meets.bind fun k stack =>
    (placeMain_meets stack ok fun i mem => ?_).bind fun image ⟨placed, bias⟩ => ?_
  · obtain ⟨_, _, fine, _⟩ := old i mem
    exact fine
  refine (Meets.mapM (R := fun i x => (x.Ok k.guard ∧ (image.stop ≤ x.start ∨ x.stop ≤ image.start)) ∧ i.2.alignment ∣ x.bias)
    fun i mem => ?_).bind fun linker link => ?_
  · obtain ⟨_, _, fine, _⟩ := old i mem
    exact placeInterpreter_meets stack placed.order.2 fine
  have linker_ok : ∀ x ∈ linker, x.Ok k.guard ∧ (image.stop ≤ x.start ∨ x.stop ≤ image.start) := fun x mem => by
    obtain ⟨_, _, fine, _⟩ := link x mem
    exact fine
  refine (placeBrk_meets stack placed.whole.2 fun i mem => (linker_ok i mem).1.whole.1).bind
    fun (start, lim) ⟨startWhole, limitWhole, above, nonempty, ⟨top, clipped⟩, first, drawn⟩ =>
    (chooseVdso_meets stack ?_ ?_).bind fun vdso ⟨⟨whole, lo, apart⟩, exactly⟩ => meets_pure ?_
  · cases linker <;> simp
  · intro i mem
    rcases mem_cons.mp mem with rfl | ne
    · exact ⟨placed.whole.2, placed.order.1⟩
    have := (linker_ok i (Option.mem_toList.mp ne)).1
    exact ⟨this.whole.2, this.order.1⟩
  generalize limited : (if start < vdso ∧ vdso < lim then vdso else lim) = last
  have heap := heap_clipped startWhole limitWhole whole nonempty limited
  have ord := stack.order
  have mainOrder := placed.order
  have mainApart := apart image mem_cons_self
  -- the heap starts on a free page, unless it starts in an interpreter that adjoins the main image
  have free (adjoining : ∀ i ∈ linker, i.start = image.stop → i.stop ≤ start) :
      ∀ i ∈ image :: linker.toList, start + pageSize ≤ i.start ∨ i.stop ≤ start := by
    intro i mem
    rcases mem_cons.mp mem with rfl | listed
    · exact .inr above
    have mine := Option.mem_toList.mp listed
    obtain ⟨ok, side⟩ := linker_ok i mine
    have := ok.order
    have := clipped i mine
    have := adjoining i mine
    dsimp only at nonempty above this
    have room (less : start < i.start) := Nat.le_of_dvd (by omega) (Nat.dvd_sub ok.whole.1 startWhole)
    omega
  refine ⟨?_, ⟨fun distinct => ?_, fun clear => ?_⟩, fun ne eq => ?_, fun s mine ne eq x mem => ?_⟩
  · intro r mem
    simp only [Layout.regions, mem_append, mem_cons, not_mem_nil, or_false, mem_map, Option.mem_toList] at mem
    rcases mem with (rfl | rfl | rfl | rfl) | ⟨i, mine, rfl⟩
    · exact ⟨placed.whole.1, placed.whole.2, by omega, by omega⟩
    · exact ⟨whole, Nat.dvd_add whole (Nat.dvd_refl _), by omega, by omega⟩
    · exact ⟨startWhole, heap.1, by omega, by omega⟩
    · exact ⟨stack.aligned.2.1, stack.aligned.1, by omega, by omega⟩
    · have ok := (linker_ok i mine).1
      have := ok.order
      exact ⟨ok.whole.1, ok.whole.2, by omega, by omega⟩
  · have pair := distinct
    simp only [Layout.Apart, Layout.regions, pairwise_append, pairwise_cons, mem_cons, forall_eq_or_imp] at pair
    dsimp only at drawn
    have adjoining (i) (mine : i ∈ linker) (adjoins : i.start = image.stop) : i.stop ≤ start := by
      have := pair.2.2.2.2.1 _ (mem_map.mpr ⟨i, Option.mem_toList.mpr mine, rfl⟩)
      dsimp only at this
      omega
    refine ⟨fun i mine adjoins => drawn ▸ adjoining i mine adjoins, fun same => ?_⟩
    have here : vdso = start := (exactly start startWhole first (free adjoining)).mpr (drawn ▸ same)
    have := pair.1.2.1.1
    omega
  · have adjoining (i) (mine : i ∈ linker) (adjoins : i.start = image.stop) : i.stop ≤ start :=
      (clear.adjoining i mine adjoins).trans_eq drawn.symm
    have differs : vdso ≠ start := fun same =>
      clear.vdso (drawn ▸ (exactly start startWhole first (free adjoining)).mp same)
    rw [Layout.Apart, Layout.regions, pairwise_append]
    refine ⟨by simp; omega, by cases linker <;> simp, fun r one q two => ?_⟩
    obtain ⟨i, mine, rfl⟩ := mem_map.mp two
    rw [Option.mem_toList] at mine
    obtain ⟨ok, _⟩ := linker_ok i mine
    have := ok.order
    have := clipped i mine
    have := adjoining i mine
    have := apart i (.tail _ (Option.mem_toList.mpr mine))
    simp only [mem_cons, not_mem_nil, or_false] at one
    rcases one with rfl | rfl | rfl | rfl <;> dsimp only at * <;> omega
  · cases bounds.symm.trans eq
    exact bias
  · obtain ⟨i, known', _, fine⟩ := link x mem
    obtain ⟨_, mine', _, same'⟩ := old i known'
    cases Option.some.inj (mine.symm.trans mine')
    cases eq.symm.trans same'
    exact fine

end

def fixed (start stop : Nat) (whole : 4096 ∣ start ∧ 4096 ∣ stop ∧ stop ≤ uint64Max) : @Source .riscv :=
  @Source.mk .riscv false [(start, stop)] [] (fun run inside => by cases mem_singleton.mp inside; exact whole) nofun

theorem select_apart_low : ∃ l, @select .riscv (fixed 0x10000 0x11000 (by decide)) none none (fun _ => some 0) = .ok l ∧
    @Layout.Apart .riscv l := by
  have met := (@select_apart .riscv (fixed 0x10000 0x11000 (by decide)) none none fun _ => some 0).2 _ rfl
  exact ⟨_, rfl, met.2.1.mpr (@Clear.mk .riscv _ _ _ _ _ (by decide) (by decide))⟩

/-- The VDSO is on the first page of the heap, or an interpreter that adjoins the main image is. -/
theorem heap_overlaps : (∃ main draws l, @select .riscv main none none draws = .ok l ∧ l.vdso = l.brkStart ∧ ¬ @Layout.Apart .riscv l) ∧
    ∃ main interpreter draws l, @select .riscv main (some interpreter) none draws = .ok l ∧ l.vdso ≠ l.brkStart ∧
      ¬ @Layout.Apart .riscv l :=
  ⟨⟨fixed 0x10000 0x11000 (by decide), fun n => some (if n = 5 then 15 else 0), _, rfl, by decide, by unfold Layout.Apart; decide⟩,
    fixed 0x10000 0x11000 (by decide), fixed 0x11000 0x12000 (by decide), fun _ => some 0, _, rfl, by decide,
    by unfold Layout.Apart; decide⟩

end BoarOS.ElfLayout
