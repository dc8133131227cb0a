import BoarOS.Vma.Model

namespace BoarOS.Vma
open UInt64

@[simp] theorem uint64Max_toNat : uint64Max.toNat = 18446744073709551615 := rfl

theorem toNat_le_uint64Max (v : UInt64) : v.toNat ≤ uint64Max.toNat := by
  have := v.toNat_lt
  simp only [uint64Max_toNat]
  omega

namespace KernelVma
variable {vma left right : KernelVma} {addr : UInt64}

def shaped (vma : KernelVma) : Bool :=
  match vma.kind with
  | .anonymous =>
    vma.backing = 0 && vma.faultPolicy ≠ .filePrivate && vma.faultPolicy ≠ .elf && vma.faultPolicy ≠ .anonShared
  | .filePrivate => vma.backing ≠ 0 && vma.faultPolicy = .filePrivate
  | .elfPrivate => vma.backing ≠ 0 && vma.faultPolicy = .elf
  | .anonShared => vma.backing ≠ 0 && vma.faultPolicy = .anonShared
  | .sysvShm => vma.backing ≠ 0 && vma.faultPolicy = .anonShared
  | .fileShared => vma.backing ≠ 0 && vma.faultPolicy = .fileShared

/-- Everything `vma_valid` checks except the page alignment of a shared
object's offset. -/
structure Sound (vma : KernelVma) : Prop where
  nonempty : vma.start.toNat < vma.stop.toNat
  flagsKnown : vma.flags &&& ~~~allFlags = 0
  lockKind : vma.flags &&& lockMask ≠ flagLockOnfault
  maximumKnown : vma.maximumPermissions &&& ~~~allPermissions = 0
  permitted : vma.permissions &&& allPermissions &&& ~~~vma.maximumPermissions = 0
  detached : vma.kind ≠ .sysvShm → vma.shmAttachment = 0
  attached : vma.kind = .sysvShm → vma.shmAttachment ≠ 0
  shaped : vma.shaped = true
  origin : vma.kind = .anonymous → vma.backingOffset = 0
  extent : vma.kind ≠ .anonymous → vma.backingOffset.toNat + (vma.stop.toNat - vma.start.toNat) ≤ uint64Max.toNat

section
variable (ordered : vma.start.toNat < vma.stop.toNat)
include ordered

theorem length_toNat : (vma.stop - vma.start).toNat = vma.stop.toNat - vma.start.toNat :=
  UInt64.toNat_sub_of_le _ _ (UInt64.le_iff_toNat_le.mpr (le_of_lt ordered))

theorem room_toNat : (uint64Max - (vma.stop - vma.start)).toNat = uint64Max.toNat - (vma.stop.toNat - vma.start.toNat) := by
  rw [UInt64.toNat_sub_of_le _ _ (UInt64.le_iff_toNat_le.mpr (toNat_le_uint64Max _)), length_toNat ordered]

theorem backed_iff : vma.backed policy = true ↔ vma.backing ≠ 0 ∧ vma.faultPolicy = policy ∧
      vma.backingOffset.toNat + (vma.stop.toNat - vma.start.toNat) ≤ uint64Max.toNat := by
  have last := toNat_le_uint64Max vma.stop
  have room : ¬ uint64Max - (vma.stop - vma.start) < vma.backingOffset ↔
      vma.backingOffset.toNat + (vma.stop.toNat - vma.start.toNat) ≤ uint64Max.toNat := by
    rw [lt_iff_toNat_lt, room_toNat ordered]
    omega
  simp only [backed, Bool.and_eq_true, decide_eq_true_eq, Bool.not_eq_true', decide_eq_false_iff_not, room, and_assoc]

end

def join (left right : KernelVma) : KernelVma := { left with stop := right.stop }
def headTo (vma : KernelVma) (address : UInt64) : KernelVma := { vma with stop := address }

def tailFrom (vma : KernelVma) (address : UInt64) : KernelVma :=
  { vma with
    start := address
    backingOffset :=
      if vma.kind ≠ .anonymous then vma.backingOffset + (address - vma.start)
      else vma.backingOffset }

@[simp] theorem join_start : (left.join right).start = left.start := rfl
@[simp] theorem join_stop : (left.join right).stop = right.stop := rfl
@[simp] theorem join_attachment : (left.join right).shmAttachment = left.shmAttachment := rfl
@[simp] theorem headTo_start : (vma.headTo addr).start = vma.start := rfl
@[simp] theorem headTo_stop : (vma.headTo addr).stop = addr := rfl
@[simp] theorem headTo_attachment : (vma.headTo addr).shmAttachment = vma.shmAttachment := rfl
@[simp] theorem tailFrom_start : (vma.tailFrom addr).start = addr := rfl
@[simp] theorem tailFrom_stop : (vma.tailFrom addr).stop = vma.stop := rfl
@[simp] theorem tailFrom_attachment : (vma.tailFrom addr).shmAttachment = vma.shmAttachment := rfl

/-- The attributes that neighbours must share, and how their offsets relate. -/
structure Mergeable (left right : KernelVma) : Prop where
  adjacent : left.stop = right.start
  permissions : left.permissions = right.permissions
  kind : left.kind = right.kind
  role : left.role = right.role
  faultPolicy : left.faultPolicy = right.faultPolicy
  flags : left.flags = right.flags
  backing : left.backing = right.backing
  shmAttachment : left.shmAttachment = right.shmAttachment
  maximumPermissions : left.maximumPermissions = right.maximumPermissions
  notSysv : left.kind ≠ .sysvShm
  offsets : left.kind ≠ .anonymous → left.backingOffset ≤ uint64Max - (left.stop - left.start) ∧
      left.backingOffset + (left.stop - left.start) = right.backingOffset

theorem canMerge_iff : left.canMerge right = true ↔ left.Mergeable right := by
  constructor
  · intro ok
    unfold canMerge at ok
    split at ok
    · contradiction
    rename_i eq
    simp only [not_or, Decidable.not_not] at eq
    obtain ⟨adjacent, perms, kind, role, policy, flags, backing, att, maximum⟩ := eq
    split at ok
    · contradiction
    rename_i sysv
    simp only [not_or] at sysv
    refine ⟨adjacent, perms, kind, role, policy, flags, backing, att, maximum, sysv.1, ?_⟩
    intro anonymous
    simpa only [if_neg anonymous, Bool.and_eq_true, decide_eq_true_eq] using ok
  · rintro ⟨adjacent, perms, kind, role, policy, flags, backing, att, maximum, sysv, offsets⟩
    have rightSysv : right.kind ≠ .sysvShm := kind ▸ sysv
    unfold canMerge
    rw [if_neg (by simp only [not_or, Decidable.not_not]; exact ⟨adjacent, perms, kind, role, policy, flags, backing, att, maximum⟩),
      if_neg (by simp only [not_or]; exact ⟨sysv, rightSysv⟩)]
    split
    · rfl
    next anonymous =>
      simpa only [Bool.and_eq_true, decide_eq_true_eq] using offsets anonymous

theorem Mergeable.offset_toNat (joins : left.Mergeable right) (ordered : left.start.toNat < left.stop.toNat)
    (backed : left.kind ≠ .anonymous) : left.backingOffset.toNat + (left.stop.toNat - left.start.toNat) = right.backingOffset.toNat := by
  obtain ⟨room, sum⟩ := joins.offsets backed
  rw [le_iff_toNat_le, room_toNat ordered] at room
  have len := toNat_le_uint64Max left.stop
  rw [← sum, UInt64.toNat_add, length_toNat ordered]
  simp only [uint64Max_toNat] at room len
  omega

theorem tailFrom_offset_toNat (sound : vma.Sound) (backed : vma.kind ≠ .anonymous)
    (lo : vma.start.toNat ≤ addr.toNat) (upper : addr.toNat ≤ vma.stop.toNat) :
    (vma.tailFrom addr).backingOffset.toNat = vma.backingOffset.toNat + (addr.toNat - vma.start.toNat) := by
  have extent := sound.extent backed
  simp only [uint64Max_toNat] at extent
  simp only [tailFrom, if_pos backed]
  rw [UInt64.toNat_add, UInt64.toNat_sub_of_le _ _ (UInt64.le_iff_toNat_le.mpr lo), Nat.mod_eq_of_lt (by omega)]

theorem Sound.join (soundL : left.Sound) (soundR : right.Sound) (joins : left.Mergeable right) : (left.join right).Sound := by
  have touching : left.stop.toNat = right.start.toNat := by rw [joins.adjacent]
  have leftOrder := soundL.nonempty
  have rightOrder := soundR.nonempty
  refine ⟨?_, soundL.flagsKnown, soundL.lockKind, soundL.maximumKnown, soundL.permitted, soundL.detached, soundL.attached, soundL.shaped,
    soundL.origin, ?_⟩
  · simp only [join_start, join_stop]
    omega
  intro backed
  have offset := joins.offset_toNat leftOrder backed
  have extent := soundR.extent (joins.kind ▸ backed)
  change left.backingOffset.toNat + (right.stop.toNat - left.start.toNat) ≤ _
  omega

theorem Sound.headTo (sound : vma.Sound) (lo : vma.start.toNat < addr.toNat)
    (upper : addr.toNat ≤ vma.stop.toNat) : (vma.headTo addr).Sound := by
  refine ⟨lo, sound.flagsKnown, sound.lockKind, sound.maximumKnown, sound.permitted,
    sound.detached, sound.attached, sound.shaped, sound.origin, ?_⟩
  intro backed
  have extent := sound.extent backed
  change vma.backingOffset.toNat + (addr.toNat - vma.start.toNat) ≤ _
  omega

theorem Sound.tailFrom (sound : vma.Sound) (lo : vma.start.toNat ≤ addr.toNat)
    (upper : addr.toNat < vma.stop.toNat) : (vma.tailFrom addr).Sound := by
  refine ⟨upper, sound.flagsKnown, sound.lockKind, sound.maximumKnown, sound.permitted,
    sound.detached, sound.attached, sound.shaped, ?_, ?_⟩
  · intro anonymous
    change vma.kind = .anonymous at anonymous
    simpa only [KernelVma.tailFrom, anonymous, ne_eq, not_true_eq_false, if_false] using sound.origin anonymous
  intro backed
  have extent := sound.extent backed
  rw [tailFrom_offset_toNat sound backed lo (le_of_lt upper)]
  simp only [tailFrom_start, tailFrom_stop]
  omega

theorem Mergeable.detached (joins : left.Mergeable right) (sound : left.Sound) : left.shmAttachment = 0 ∧ right.shmAttachment = 0 := by
  have none := sound.detached joins.notSysv
  exact ⟨none, joins.shmAttachment ▸ none⟩

end KernelVma

variable [PageGeometry]

theorem and_pageMask_eq_zero_iff (v : UInt64) : v &&& UInt64.ofNat pageMask = 0 ↔ v.toNat % pageSize = 0 := by
  have exponent : pageShift ≤ 64 := by
    rcases PageGeometry.supported with shift | shift <;> simp only [pageShift, shift] <;> decide
  have mask : (ofNat pageMask).toNat = 2 ^ pageShift - 1 := by
    rw [pageMask, pageSize]
    apply Nat.mod_eq_of_lt
    have := Nat.pow_le_pow_right (show 0 < 2 by decide) exponent
    omega
  rw [← UInt64.toNat_inj, UInt64.toNat_and, mask, Nat.and_two_pow_sub_one_eq_mod]
  rfl

namespace KernelVma
variable {vma : KernelVma}

def OffsetAligned (vma : KernelVma) : Prop :=
  vma.kind = .anonShared ∨ vma.kind = .sysvShm → vma.backingOffset.toNat % pageSize = 0

theorem valid_iff : vma.valid = true ↔ vma.Sound ∧ vma.OffsetAligned := by
  by_cases ordered : vma.start.toNat < vma.stop.toNat
  · have lt : vma.start < vma.stop := lt_iff_toNat_lt.mpr ordered
    constructor
    · intro ok
      simp only [valid, Bool.and_eq_true, decide_eq_true_eq] at ok
      obtain ⟨⟨⟨⟨⟨⟨_, old⟩, lock⟩, maximum⟩, permitted⟩, att⟩, body⟩ := ok
      simp only [Bool.or_eq_true] at att
      cases kind : vma.kind <;> simp only [kind, Bool.and_eq_true, decide_eq_true_eq, backed_iff ordered, and_pageMask_eq_zero_iff] at body
      all_goals
        refine ⟨⟨ordered, old, lock, maximum, permitted, ?_, ?_, ?_, ?_, ?_⟩, ?_⟩ <;> simp_all [shaped, OffsetAligned]
    rintro ⟨sound, _⟩
    have extent := sound.extent
    have shape := sound.shaped
    have detached := sound.detached
    have attached := sound.attached
    have origin := sound.origin
    simp only [valid, Bool.and_eq_true, decide_eq_true_eq, Bool.or_eq_true]
    refine ⟨⟨⟨⟨⟨⟨lt, sound.flagsKnown⟩, sound.lockKind⟩, sound.maximumKnown⟩, sound.permitted⟩, ?_⟩, ?_⟩
    · by_cases sysv : vma.kind = .sysvShm
      · exact .inl sysv
      · exact .inr (detached sysv)
    · cases kind : vma.kind <;> simp_all [shaped, OffsetAligned, backed_iff ordered, and_pageMask_eq_zero_iff]
  · constructor
    · intro ok
      simp only [valid, Bool.and_eq_true, decide_eq_true_eq] at ok
      exact absurd (lt_iff_toNat_lt.mp ok.1.1.1.1.1.1) ordered
    · rintro ⟨sound, _⟩
      exact absurd sound.nonempty ordered

end KernelVma
end BoarOS.Vma
