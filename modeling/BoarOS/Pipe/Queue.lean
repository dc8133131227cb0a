import Mathlib.Algebra.BigOperators.Group.List.Basic
import BoarOS.Data.RingWindow
import BoarOS.Pipe.Model

namespace BoarOS.Pipe
open Data Function List Pipe.Ring

/-! # The ring as a queue of buffers -/

variable {ring : Ring} {memory : Nat → Nat → UInt8} {slot page count nr : Nat} {buf : Buffer} {frag : Fragment}
  {mergeSlot : Option Nat}

namespace Buffer

def contents (buffer : Buffer) (memory : Nat → Nat → UInt8) : List UInt8 :=
  (List.range buffer.length).map fun j => memory (buffer.page.getD 0) (buffer.offset + j)

theorem length_contents : (buf.contents memory).length = buf.length := by
  rw [contents, length_map, length_range]

theorem contents_split (fits : count ≤ buf.length) : buf.contents memory = (buf.contents memory).take count ++
      contents { buf with offset := buf.offset + count, length := buf.length - count } memory := by
  have parts : List.range buf.length = List.range count ++ (List.range (buf.length - count)).map (count + ·) := by
    rw [← range_add, Nat.add_sub_cancel' fits]
  unfold contents
  rw [parts, map_append, take_left' (by rw [length_map, length_range]), map_map]
  congr 1
  exact map_congr_left fun j _ => by rw [Function.comp_apply, add_assoc]

theorem contents_extend : contents { buf with length := buf.length + count } memory = buf.contents memory ++
      (List.range count).map fun j => memory (buf.page.getD 0) (buf.offset + buf.length + j) := by
  dsimp only [contents]
  rw [range_add, map_append, map_map]
  congr 1
  exact map_congr_left fun j _ => by rw [Function.comp_apply, add_assoc]

theorem contents_write (away : buf.page = some page → buf.offset + buf.length ≤ position) (has : buf.page ≠ none) :
    buf.contents (update memory page (update (memory page) position byte)) = buf.contents memory := by
  refine map_congr_left fun j mem => ?_
  have lt := mem_range.mp mem
  obtain ⟨own, here⟩ := Option.ne_none_iff_exists'.mp has
  rw [here, Option.getD_some]
  rcases eq_or_ne own page with rfl | ne
  · have beyond := away here
    rw [update_self, update_of_ne (by omega)]
  · rw [update_of_ne ne]

variable [PageGeometry]

structure Ok (buffer : Buffer) : Prop where
  page : buffer.page ≠ none
  some : 0 < buffer.length
  fits : buffer.offset + buffer.length ≤ pageSize

end Buffer

variable [PageGeometry]

namespace Ring

def queue (ring : Ring) : List Buffer := window ring.size ring.head ring.slots ring.buffers
def content (ring : Ring) (memory : Nat → Nat → UInt8) : List UInt8 := ring.queue.flatMap (·.contents memory)
def Occupied (ring : Ring) (slot : Nat) : Prop := InWindow ring.size ring.head ring.slots slot

structure Ok (ring : Ring) : Prop where
  power : ∃ k, k ≤ 32 ∧ ring.size = 2 ^ k
  head : ring.head < ring.size
  slots : ring.slots ≤ ring.size
  tail : ring.tail = (ring.head + ring.slots) % ring.size
  buffers : ∀ buffer ∈ ring.queue, buffer.Ok
  bytes : ring.bytes = (ring.queue.map Buffer.length).sum

namespace Ok
section
variable (ok : ring.Ok)
include ok

theorem mask (x : Nat) : x &&& (ring.size - 1) = x % ring.size := by
  obtain ⟨k, _, size⟩ := ok.power
  rw [size, Nat.and_two_pow_sub_one_eq_mod]

theorem nextSlot : ring.nextSlot slot = (slot + 1) % ring.size := ok.mask _

theorem last (some : ring.slots ≠ 0) : ring.last = (ring.head + (ring.slots - 1)) % ring.size := by
  have pos := Nat.zero_lt_of_lt ok.head
  rw [Ring.last, ok.mask, ok.tail, Nat.add_sub_assoc pos, Nat.mod_add_mod,
    show ring.head + ring.slots + (ring.size - 1) = ring.head + (ring.slots - 1) + ring.size by omega, Nat.add_mod_right]

theorem head_occupied (some : ring.slots ≠ 0) : ring.Occupied ring.head := inWindow_head ok.head (Nat.pos_of_ne_zero some)

theorem last_occupied (some : ring.slots ≠ 0) : ring.Occupied ring.last := ⟨ring.slots - 1, by omega, ok.last some⟩

theorem tail_free (room : ring.slots < ring.size) : ¬ ring.Occupied ring.tail := by
  rw [ok.tail]
  exact not_inWindow_next room

theorem buffer_of_occupied (occupied : ring.Occupied slot) : (ring.buffers slot).Ok := by
  obtain ⟨i, mem, rfl⟩ := occupied
  exact ok.buffers _ (mem_map_of_mem (mem_range.mpr mem))

theorem queue_cons (some : ring.slots ≠ 0) :
    ring.queue = ring.buffers ring.head :: window ring.size ((ring.head + 1) % ring.size) (ring.slots - 1) ring.buffers := by
  obtain ⟨n, slots⟩ := Nat.exists_eq_succ_of_ne_zero some
  rw [queue, slots, window_cons ok.head, Nat.succ_sub_one]

theorem queue_concat (some : ring.slots ≠ 0) :
    ring.queue = window ring.size ring.head (ring.slots - 1) ring.buffers ++ [ring.buffers ring.last] := by
  rw [ok.last some]
  obtain ⟨n, slots⟩ := Nat.exists_eq_succ_of_ne_zero some
  rw [queue, slots, window_concat, Nat.succ_sub_one]

end
end Ok

theorem ok_of_queue (power : ∃ k, k ≤ 32 ∧ ring.size = 2 ^ k) (head : ring.head < ring.size)
    (slots : ring.slots ≤ ring.size) (tail : ring.tail = (ring.head + ring.slots) % ring.size) (eq : ring.queue = q)
    (buffers : ∀ buf ∈ q, buf.Ok) (bytes : ring.bytes = (q.map Buffer.length).sum) : ring.Ok :=
  ⟨power, head, slots, tail, by rwa [eq], by rwa [eq]⟩

/-- What is left of a ring when the first `count` bytes of its first buffer are taken. -/
structure Consumed (ring after : Ring) (count : Nat) (page : Option Nat) : Prop where
  ok : after.Ok
  size : after.size = ring.size
  tail : after.tail = ring.tail
  bytes : after.bytes + count = ring.bytes
  content : ∀ memory, ring.content memory = ((ring.buffers ring.head).contents memory).take count ++ after.content memory
  slots : after.slots ≤ ring.slots ∧ (1 < ring.slots → after.slots ≠ 0)
  others : ∀ slot, slot ≠ ring.head → after.buffers slot = ring.buffers slot
  occupied : ∀ slot, ring.Occupied slot → after.Occupied slot ∨ slot = ring.head ∧ (after.buffers slot).page = none
  page : page = none ∧ (after.buffers ring.head).page = (ring.buffers ring.head).page ∨
    page = (ring.buffers ring.head).page ∧ (after.buffers ring.head).page = none

theorem Ok.consume (ok : ring.Ok) (some : ring.slots ≠ 0) (fits : count ≤ (ring.buffers ring.head).length)
    (free : mergeSlot ≠ Option.some ring.head) :
    ∃ page s', ring.consume mergeSlot count = Option.some (page, s') ∧ ring.Consumed s' count page := by
  have q := ok.queue_cons some
  have shape := ok.buffers
  have total := ok.bytes
  rw [q, map_cons, sum_cons] at total
  rw [q] at shape
  dsimp only [Ring.consume]
  rw [if_neg free]
  by_cases used : (ring.buffers ring.head).length - count = 0
  · have all : count = (ring.buffers ring.head).length := by omega
    rw [if_pos used]
    refine ⟨_, _, rfl, ?_⟩
    have out := not_inWindow_rest ok.head (show ring.slots - 1 < ring.size by have := ok.slots; omega)
    have rest : queue { ring.setBuffer ring.head .empty with
        bytes := ring.bytes - count, head := ring.nextSlot ring.head, slots := ring.slots - 1 } =
        window ring.size ((ring.head + 1) % ring.size) (ring.slots - 1) ring.buffers := by
      rw [queue]
      dsimp only [setBuffer]
      rw [ok.nextSlot, window_update out]
    refine ⟨ok_of_queue ok.power ?_ (le_trans (Nat.sub_le _ _) ok.slots) ?_ rest
      (fun buf mem => shape buf (.tail _ mem)) ?_, rfl, rfl, ?_, fun memory => ?_,
      ⟨Nat.sub_le _ _, fun more => ?_⟩, fun slot other => update_of_ne other .., fun slot occupied => ?_,
      .inr ⟨rfl, by dsimp only [setBuffer]; rw [update_self]; rfl⟩⟩
    · rw [ok.nextSlot]
      exact Nat.mod_lt _ (Nat.zero_lt_of_lt ok.head)
    · dsimp only [setBuffer]
      rw [ok.nextSlot, ok.tail, Nat.mod_add_mod]
      congr 1
      omega
    · dsimp only
      omega
    · dsimp only
      omega
    · have whole : ((ring.buffers ring.head).contents memory).length ≤ count := by
        rw [Buffer.length_contents, all]
      rw [content, content, rest, q, flatMap_cons, take_of_length_le whole]
    · dsimp only
      omega
    · rw [Occupied, show ring.slots = ring.slots - 1 + 1 by omega, inWindow_cons ok.head] at occupied
      rcases occupied with here | later
      · right
        refine ⟨here, ?_⟩
        dsimp only [setBuffer]
        rw [here, update_self]
        rfl
      left
      rw [ok.nextSlot]
      exact later
  · rw [if_neg used]
    refine ⟨_, _, rfl, ?_⟩
    have out := not_inWindow_rest ok.head (show ring.slots - 1 < ring.size by have := ok.slots; omega)
    have rest : queue { ring.setBuffer ring.head { ring.buffers ring.head with
          offset := (ring.buffers ring.head).offset + count, length := (ring.buffers ring.head).length - count } with
        bytes := ring.bytes - count } =
        { ring.buffers ring.head with
          offset := (ring.buffers ring.head).offset + count, length := (ring.buffers ring.head).length - count } ::
        window ring.size ((ring.head + 1) % ring.size) (ring.slots - 1) ring.buffers := by
      obtain ⟨n, slots⟩ := Nat.exists_eq_succ_of_ne_zero some
      rw [queue]
      dsimp only [setBuffer]
      rw [slots, window_cons ok.head, update_self, Nat.succ_sub_one, window_update (by simpa [slots] using out)]
    have first := shape _ mem_cons_self
    refine ⟨ok_of_queue ok.power ok.head ok.slots ok.tail rest (fun buf mem => ?_) ?_, rfl, rfl, ?_,
      fun memory => ?_, ⟨le_rfl, fun _ => some⟩, fun slot other => update_of_ne other ..,
      fun slot occupied => .inl occupied, .inl ⟨rfl, by dsimp only [setBuffer]; rw [update_self]⟩⟩
    · rcases mem_cons.mp mem with rfl | later
      · have fitting := first.fits
        exact ⟨first.page, Nat.pos_of_ne_zero used, by dsimp only; omega⟩
      · exact shape buf (.tail _ later)
    · rw [map_cons, sum_cons]
      dsimp only
      omega
    · dsimp only
      omega
    · rw [content, content, rest, q, flatMap_cons, flatMap_cons, ← append_assoc, ← Buffer.contents_split fits]

theorem Ok.setPage (ok : ring.Ok) (room : ring.slots < ring.size) (page : Option Nat) :
    (ring.setPage ring.tail page).Ok ∧ (ring.setPage ring.tail page).queue = ring.queue := by
  have eq : (ring.setPage ring.tail page).queue = ring.queue := window_update (ok.tail_free room)
  exact ⟨ok_of_queue ok.power ok.head ok.slots ok.tail eq ok.buffers ok.bytes, eq⟩

structure Published (ring after : Ring) (chunk : Nat) : Prop where
  ok : after.Ok
  size : after.size = ring.size
  head : after.head = ring.head
  bytes : after.bytes = ring.bytes + chunk
  slots : ring.slots ≤ after.slots ∧ after.slots ≠ 0
  occupied : ∀ slot, ring.Occupied slot → after.Occupied slot
  pages : ∀ slot, (after.buffers slot).page = (ring.buffers slot).page

theorem Ok.append (ok : ring.Ok) (room : ring.slots < ring.size) (slot : frag.slot = ring.tail) (new : frag.merging = false) (kernel : Bool)
    (some : 0 < frag.chunk) (fits : frag.chunk ≤ pageSize) (has : (ring.buffers ring.tail).page = Option.some page) :
    ring.Published (ring.publish frag kernel) frag.chunk ∧ (ring.publish frag kernel).Occupied ring.tail ∧
      (∀ slot, slot ≠ ring.tail → (ring.publish frag kernel).buffers slot = ring.buffers slot) ∧
      ∀ memory, (ring.publish frag kernel).content memory = ring.content memory ++
        (List.range frag.chunk).map fun j => memory page (0 + j) := by
  unfold publish
  rw [if_neg (by simp [new]), slot]
  have q : queue { ring.setBuffer ring.tail { ring.buffers ring.tail with
        offset := 0, length := frag.chunk, canMerge := !kernel } with
      tail := ring.nextSlot ring.tail, slots := ring.slots + 1, bytes := ring.bytes + frag.chunk } =
      ring.queue ++ [{ ring.buffers ring.tail with offset := 0, length := frag.chunk, canMerge := !kernel }] := by
    rw [queue]
    dsimp only [setBuffer]
    rw [window_concat, window_update (ok.tail_free room), ← ok.tail, update_self]
    rfl
  refine ⟨⟨ok_of_queue ok.power ok.head room ?_ q (fun buf mem => ?_) ?_, rfl, rfl, rfl,
    ⟨Nat.le_succ _, Nat.succ_ne_zero _⟩, fun k occupied => inWindow_concat.mpr (.inl occupied), fun k => ?_⟩,
    inWindow_concat.mpr (.inr ok.tail), fun k other => update_of_ne other .., fun memory => ?_⟩
  · rw [ok.nextSlot, ok.tail, Nat.mod_add_mod]
    congr 1
  · rcases mem_append.mp mem with old | last
    · exact ok.buffers buf old
    · rw [mem_singleton.mp last]
      exact ⟨by dsimp only; rw [has]; nofun, some, by dsimp only; omega⟩
  · rw [map_append, sum_append, ← ok.bytes]
    simp
  · dsimp only [setBuffer]
    rcases eq_or_ne k ring.tail with rfl | other
    · rw [update_self]
    · rw [update_of_ne other]
  · rw [content, q, flatMap_append, flatMap_singleton, Buffer.contents]
    rw [has]
    rfl

theorem Ok.extend (ok : ring.Ok) (some : ring.slots ≠ 0) (slot : frag.slot = ring.last) (merging : frag.merging = true)
    (kernel : Bool) (fits : (ring.buffers ring.last).offset + (ring.buffers ring.last).length + frag.chunk ≤ pageSize)
    (has : (ring.buffers ring.last).page = Option.some page) : ring.Published (ring.publish frag kernel) frag.chunk ∧
      (∀ slot, slot ≠ ring.last → (ring.publish frag kernel).buffers slot = ring.buffers slot) ∧
      ∀ memory, (ring.publish frag kernel).content memory = ring.content memory ++ (List.range frag.chunk).map fun j =>
          memory page ((ring.buffers ring.last).offset + (ring.buffers ring.last).length + j) := by
  unfold publish
  rw [if_pos merging, slot]
  have pre := ok.queue_concat some
  have out : ¬ InWindow ring.size ring.head (ring.slots - 1) ring.last := by
    rw [ok.last some]
    exact not_inWindow_next (by have := ok.slots; omega)
  have q : queue { ring.setBuffer ring.last { ring.buffers ring.last with
        length := (ring.buffers ring.last).length + frag.chunk } with bytes := ring.bytes + frag.chunk } =
      window ring.size ring.head (ring.slots - 1) ring.buffers ++
        [{ ring.buffers ring.last with length := (ring.buffers ring.last).length + frag.chunk }] := by
    rw [queue]
    dsimp only [setBuffer]
    rw [show ring.slots = ring.slots - 1 + 1 by omega, window_concat, ← ok.last some, update_self, Nat.add_sub_cancel, window_update out]
  have shape := ok.buffers
  rw [pre] at shape
  have last := shape _ (mem_append_right _ mem_cons_self)
  refine ⟨⟨ok_of_queue ok.power ok.head ok.slots ok.tail q (fun buf mem => ?_) ?_, rfl, rfl, rfl,
    ⟨le_rfl, some⟩, fun k occupied => occupied, fun k => ?_⟩, fun k other => update_of_ne other ..,
    fun memory => ?_⟩
  · rcases mem_append.mp mem with old | new
    · exact shape buf (mem_append_left _ old)
    · rw [mem_singleton.mp new]
      exact ⟨last.page, Nat.lt_of_lt_of_le last.some (Nat.le_add_right ..), by dsimp only; omega⟩
  · have total := ok.bytes
    rw [pre, map_append, sum_append] at total
    rw [map_append, sum_append]
    simp only [map_cons, sum_cons] at total ⊢
    omega
  · dsimp only [setBuffer]
    rcases eq_or_ne k ring.last with rfl | other
    · rw [update_self]
    · rw [update_of_ne other]
  · rw [content, content, q, pre, flatMap_append, flatMap_append, flatMap_singleton,
      flatMap_singleton, Buffer.contents_extend, has, append_assoc]
    rfl

theorem Ok.relocate (ok : ring.Ok) (power : ∃ k, k ≤ 32 ∧ nr = 2 ^ k) (room : ring.slots ≤ nr) :
    (ring.relocate nr).Ok ∧ (ring.relocate nr).queue = ring.queue ∧ ∀ i, (ring.relocate nr).buffers i =
        if i < ring.slots then ring.buffers ((ring.head + i) % ring.size) else .empty := by
  have buffers : (ring.relocate nr).buffers = fun i =>
      if i < ring.slots then ring.buffers ((ring.head + i) % ring.size) else .empty := by
    funext i
    dsimp only [Ring.relocate]
    rw [ok.mask]
  have eq : (ring.relocate nr).queue = ring.queue := by
    rw [queue, buffers]
    exact window_relocate room
  obtain ⟨k, lt, size⟩ := power
  refine ⟨ok_of_queue ⟨k, lt, size⟩ ?_ room ?_ eq ok.buffers ok.bytes, eq, fun i => by rw [buffers]⟩
  · rw [size]
    exact Nat.two_pow_pos k
  · change ring.slots &&& (nr - 1) = (0 + ring.slots) % nr
    rw [size, Nat.and_two_pow_sub_one_eq_mod, zero_add]

end Ring
end BoarOS.Pipe
