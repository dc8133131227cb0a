import BoarOS.Vma.Primitives

namespace BoarOS.Vma
open List

/-! The attachment calls of `vma.c` against the entries of all live sets. -/

variable {es others res pre after : List KernelVma} {vma left right : KernelVma}
  {w : World} {log : List ShmCall} {att : Nat}

def attached (attachment : Nat) (entries : List KernelVma) : Nat :=
  entries.countP (·.shmAttachment == attachment)

@[simp] theorem attached_nil : attached att [] = 0 := rfl

@[simp] theorem attached_append : attached att (pre ++ after) = attached att pre + attached att after := countP_append

@[simp] theorem attached_cons : attached att (vma :: es) = attached att es + (vma.shmAttachment == att).toNat := by
  rw [attached, countP_cons]
  cases vma.shmAttachment == att <;> rfl

theorem attached_detached (detached : ¬ vma.shmAttachment ≠ 0) (real : att ≠ 0) : attached att es = attached att (vma :: es) := by
  rw [attached_cons, beq_false_of_ne (by omega)]
  rfl

theorem attached_map (eq : ∀ vma, (change vma).shmAttachment = vma.shmAttachment) : attached att (es.map change) = attached att es := by
  simp [attached, countP_map, Function.comp_def, eq]

theorem Joined.attached (join : Joined es res) (lay : Layout es) (real : att ≠ 0) : attached att res = Vma.attached att es := by
  refine join.measure (Vma.attached att) ?_ lay
  intro pre after left right laid joins
  obtain ⟨leftDetached, rightDetached⟩ := joins.detached (laid.sound left (by simp))
  simp [leftDetached, rightDetached, Ne.symm real]

/-- The log accounts for `entries`: for every attachment the opens exceed the
closes by the entries that hold it, and no close was ever one too many. -/
structure Tracks (entries : List KernelVma) (log : List ShmCall) : Prop where
  balance : ∀ attachment, attachment ≠ 0 → log.count (.attachmentOpen attachment) =
      log.count (.attachmentClose attachment) + attached attachment entries
  prefixes : ∀ earlier, earlier <+: log → ∀ attachment,
    earlier.count (.attachmentClose attachment) ≤ earlier.count (.attachmentOpen attachment)

theorem Tracks.nil : Tracks [] [] := by
  refine ⟨fun _ _ => rfl, fun old init att => ?_⟩
  rw [prefix_nil.mp init]
  exact le_rfl

theorem Tracks.congr (tracks : Tracks es log) (eq : ∀ att, att ≠ 0 → attached att res = attached att es) : Tracks res log :=
  ⟨fun att real => by rw [eq att real]; exact tracks.balance att real, tracks.prefixes⟩

theorem prefixes_concat (old : ∀ old, old <+: log → ∀ att, old.count (.attachmentClose att) ≤ old.count (.attachmentOpen att))
    (whole : ∀ att, (log ++ [call]).count (.attachmentClose att) ≤ (log ++ [call]).count (.attachmentOpen att)) :
    ∀ old, old <+: log ++ [call] → ∀ att, old.count (.attachmentClose att) ≤ old.count (.attachmentOpen att) := by
  intro init isInitial att
  rcases prefix_concat_iff.mp isInitial with eq | isInitial
  · exact eq ▸ whole att
  · exact old init isInitial att

theorem Tracks.attachmentOpen (tracks : Tracks es w.shm) (vma : KernelVma) : Tracks (vma :: es) (w.shmAttachmentOpen vma).shm := by
  unfold World.shmAttachmentOpen
  split
  · refine ⟨?_, prefixes_concat tracks.prefixes ?_⟩
    · intro att real
      have balance := tracks.balance att real
      simp only [count_append, count_singleton, attached_cons, beq_iff_eq, ShmCall.attachmentOpen.injEq, reduceCtorEq, if_false]
      by_cases eq : vma.shmAttachment = att
      · simp only [eq, if_true, beq_self_eq_true, Bool.toNat_true]
        omega
      · simp only [eq, if_false, beq_false_of_ne eq, Bool.toNat_false]
        omega
    · intro att
      have old := tracks.prefixes _ (prefix_refl _) att
      simp only [count_append, count_singleton, beq_iff_eq, reduceCtorEq, if_false]
      omega
  next detached =>
    exact tracks.congr fun _ real => (attached_detached detached real).symm

theorem Tracks.attachmentClose (tracks : Tracks (vma :: es) w.shm) : Tracks es (w.shmAttachmentClose vma).shm := by
  unfold World.shmAttachmentClose
  split
  next real =>
    refine ⟨?_, prefixes_concat tracks.prefixes ?_⟩
    · intro att real
      have balance := tracks.balance att real
      simp only [count_append, count_singleton, attached_cons, beq_iff_eq,
        ShmCall.attachmentClose.injEq, reduceCtorEq, if_false] at balance ⊢
      by_cases eq : vma.shmAttachment = att
      · simp only [eq, if_true, beq_self_eq_true, Bool.toNat_true] at balance ⊢
        omega
      · simp only [eq, if_false, beq_false_of_ne eq, Bool.toNat_false] at balance ⊢
        omega
    intro att
    have old := tracks.prefixes _ (prefix_refl _) att
    simp only [count_append, count_singleton, beq_iff_eq, reduceCtorEq, if_false, ShmCall.attachmentClose.injEq]
    split
    next eq =>
      have balance := tracks.balance att (eq ▸ real)
      simp only [attached_cons, eq, beq_self_eq_true, Bool.toNat_true] at balance
      omega
    · omega
  next detached =>
    exact tracks.congr fun _ => attached_detached detached

def closeAll (entries : List KernelVma) (world : World) : World :=
  entries.foldl World.shmAttachmentClose world

@[simp] theorem closeAll_nil : closeAll [] w = w := rfl
@[simp] theorem closeAll_cons : closeAll (vma :: es) w = closeAll es (w.shmAttachmentClose vma) := rfl

theorem Tracks.closeAll (tracks : Tracks (es ++ others) w.shm) : Tracks others (closeAll es w).shm := by
  induction es generalizing w with
  | nil => exact tracks
  | cons vma rest ih => exact ih tracks.attachmentClose

@[simp] theorem closeAll_requests : (closeAll es w).requests = w.requests := by
  induction es generalizing w with
  | nil => rfl
  | cons vma rest ih => rw [closeAll_cons, ih, World.shmAttachmentClose_requests]

end BoarOS.Vma
