import BoarOS.Vma.Primitives

namespace BoarOS.Vma
open Data List UInt64 KernelVma

theorem KernelVma.Mergeable.of_join {l r next : KernelVma} (soundL : l.Sound) (soundR : r.Sound) (joins : l.Mergeable r)
    (join : (l.join r).Mergeable next) : r.Mergeable next := by
  have leftOrder := soundL.nonempty
  have rightOrder := soundR.nonempty
  have touching : l.stop.toNat = r.start.toNat := by rw [joins.adjacent]
  refine ⟨join.adjacent, joins.permissions ▸ join.permissions, joins.kind ▸ join.kind,
    joins.role ▸ join.role, joins.faultPolicy ▸ join.faultPolicy,
    joins.flags ▸ join.flags, joins.backing ▸ join.backing,
    joins.shmAttachment ▸ join.shmAttachment,
    joins.maximumPermissions ▸ join.maximumPermissions, joins.kind ▸ join.notSysv, ?_⟩
  intro backed
  have leftBacked : l.kind ≠ .anonymous := joins.kind ▸ backed
  have joinedOffset := join.offset_toNat (by simp only [join_start, join_stop]; omega) leftBacked
  have offset := joins.offset_toNat leftOrder leftBacked
  have extent := soundR.extent backed
  have bound := toNat_le_uint64Max next.backingOffset
  change l.backingOffset.toNat + (r.stop.toNat - l.start.toNat) = _ at joinedOffset
  simp only [uint64Max_toNat] at extent bound
  constructor
  · rw [le_iff_toNat_le, room_toNat rightOrder]
    simp only [uint64Max_toNat]
    omega
  · rw [← UInt64.toNat_inj, UInt64.toNat_add, length_toNat rightOrder, Nat.mod_eq_of_lt (by omega)]
    omega

theorem KernelVma.canMerge_of_join {l r next : KernelVma} (soundL : l.Sound) (soundR : r.Sound)
    (joins : l.canMerge r = true) (apart : r.canMerge next = false) : (l.join r).canMerge next = false := by
  cases joined : (l.join r).canMerge next with
  | false => rfl
  | true =>
    have merged := Mergeable.of_join soundL soundR (canMerge_iff.mp joins) (canMerge_iff.mp joined)
    rw [canMerge_iff.mpr merged] at apart
    contradiction

theorem Separate.replace {pre mid after : List KernelVma} {vma : KernelVma} (separate : Separate (pre ++ mid ++ after))
    (left : ∀ l ∈ pre.getLast?, l.canMerge vma = false) (right : ∀ r ∈ after.head?, vma.canMerge r = false) :
    Separate (pre ++ vma :: after) := by
  obtain ⟨head, tail, _⟩ := isChain_append.mp separate
  refine isChain_append.mpr ⟨(isChain_append.mp head).1, isChain_cons.mpr ⟨right, tail⟩, fun l last r first => ?_⟩
  simp only [head?_cons, Option.mem_some_iff] at first
  exact first ▸ left l last

namespace KernelVmaSet
variable {set : KernelVmaSet} {vma : KernelVma}

theorem searchAddress_toNat (addr : UInt64) : (searchAddress addr).toNat = min (addr.toNat + 1) uint64Max.toNat := by
  unfold searchAddress
  have bound := addr.toNat_lt
  by_cases last : addr = uint64Max
  · subst last
    rfl
  have lo : addr.toNat ≠ uint64Max.toNat := fun eq => last (UInt64.toNat_inj.mp eq)
  simp only [uint64Max_toNat] at lo ⊢
  rw [if_pos last, UInt64.toNat_add, show (1 : UInt64).toNat = 1 from rfl, Nat.mod_eq_of_lt (by omega)]
  omega

theorem search_cases (laid : Layout set.live) (addr : UInt64) :
    (set.lowerBound (searchAddress addr) = 0 ∧ ∀ vma ∈ set.live, addr.toNat ≤ vma.start.toNat ∧
        ¬ (vma.start.toNat ≤ addr.toNat ∧ addr.toNat < vma.stop.toNat)) ∨
    ∃ pre vma after, set.live = pre ++ vma :: after ∧ set.lowerBound (searchAddress addr) = pre.length + 1 ∧ vma.start.toNat ≤ addr.toNat ∧
      (∀ a ∈ pre, a.stop.toNat ≤ vma.start.toNat) ∧
      (∀ b ∈ after, addr.toNat ≤ b.start.toNat ∧ ¬ (b.start.toNat ≤ addr.toNat ∧ addr.toNat < b.stop.toNat)) := by
  obtain ⟨pre, after, split, len, lo, above⟩ := lowerBound_split laid (searchAddress addr)
  rw [searchAddress_toNat] at lo above
  have bound := toNat_le_uint64Max addr
  have beyond : ∀ b ∈ after, addr.toNat ≤ b.start.toNat ∧ ¬ (b.start.toNat ≤ addr.toNat ∧ addr.toNat < b.stop.toNat) := by
    intro b mem
    have started := above b mem
    have stopped := toNat_le_uint64Max b.stop
    omega
  rcases eq_nil_or_concat pre with none | ⟨init, last, concat⟩
  · subst none
    exact .inl ⟨len.symm, split ▸ beyond⟩
  subst concat
  simp only [concat_eq_append] at split len lo
  rw [append_assoc] at split
  rw [length_append] at len
  have started := lo last (by simp)
  obtain ⟨_, _, across⟩ := Layout.append_iff.mp (split ▸ laid)
  refine .inr ⟨init, last, after, split, len.symm, by omega, ?_, beyond⟩
  intro a mem
  exact across a mem last (by simp)

/-- `split_at` either leaves the set alone, refuses for lack of room, or cuts
the entry strictly around the address. -/
inductive Splitting (set : KernelVmaSet) (address : UInt64) (world : World) : Status × KernelVmaSet × World → Prop where
  | kept (outside : ∀ vma ∈ set.live, ¬ (vma.start < address ∧ address < vma.stop)) :
      Splitting set address world (.ok, set, world)
  | full {vma : KernelVma} (member : vma ∈ set.live) (lower : vma.start < address)
      (upper : address < vma.stop) (room : set.capacity ≤ set.count) :
      Splitting set address world (.state, set, world)
  | cut {before after : List KernelVma} {vma : KernelVma} {cut : KernelVmaSet}
      (split : set.live = before ++ vma :: after) (lower : vma.start < address)
      (upper : address < vma.stop) (room : set.count < set.capacity) (frame : Reshaped set cut)
      (count : cut.count = set.count + 1)
      (contents : cut.live = before ++ vma.headTo address :: vma.tailFrom address :: after) :
      Splitting set address world (.ok, cut, world.shmAttachmentOpen (vma.tailFrom address))

theorem splitAt_spec (laid : Layout set.live) (addr : UInt64) (w : World) : Splitting set addr w (set.splitAt addr w) := by
  unfold splitAt
  rcases search_cases laid addr with ⟨none, above⟩ | ⟨pre, vma, after, split, i, _, lo, above⟩
  · rw [none]
    refine .kept fun vma mem around => ?_
    have := (above vma mem).1
    rw [UInt64.lt_iff_toNat_lt] at around
    omega
  have cell : set.entries (pre.length + 1 - 1) = vma := live_entry split
  have sound := laid.sound vma (by simp [split])
  rw [i]
  simp only [cell, Nat.add_one_ne_zero, false_or]
  split
  next out =>
    refine .kept fun k mem around => ?_
    rw [UInt64.lt_iff_toNat_lt, UInt64.lt_iff_toNat_lt] at around
    rw [UInt64.le_iff_toNat_le, UInt64.le_iff_toNat_le] at out
    rw [split] at mem
    simp only [mem_append, mem_cons] at mem
    rcases mem with inBefore | eq | inAfter
    · have := lo k inBefore
      omega
    · subst eq
      omega
    · have := (above k inAfter).1
      omega
  rename_i around
  simp only [not_or, UInt64.not_le] at around
  obtain ⟨lower, upper⟩ := around
  split
  · exact .full (by simp [split]) lower upper (by assumption)
  rename_i room
  have room : set.count < set.capacity := by omega
  have lowerNat := UInt64.lt_iff_toNat_lt.mp lower
  have upperNat := lt_iff_toNat_lt.mp upper
  have fits : ¬ (vma.kind ≠ .anonymous ∧ uint64Max - (addr - vma.start) < vma.backingOffset) := by
    rintro ⟨backed, overflow⟩
    have extent := sound.extent backed
    rw [UInt64.lt_iff_toNat_lt, UInt64.toNat_sub_of_le _ _ (UInt64.le_iff_toNat_le.mpr (toNat_le_uint64Max _)),
      UInt64.toNat_sub_of_le _ _ (UInt64.le_iff_toNat_le.mpr (le_of_lt lowerNat))] at overflow
    omega
  rw [if_neg fits]
  have headed := setEntry_live (vma.headTo addr) split
  have shifted : (set.setEntry pre.length (vma.headTo addr)).live = (pre ++ [vma.headTo addr]) ++ after := by rw [headed, append_assoc]; rfl
  have tailed := placeEntry_live (vma.tailFrom addr) shifted
  rw [length_append, length_singleton, append_assoc] at tailed
  exact .cut split lower upper room (placeEntry_eq ..) (placeEntry_count ..) tailed

/-- `insert_entry` refuses, extends a neighbour, or places a new entry. -/
inductive Insertion (set : KernelVmaSet) (vma : KernelVma) (world : World) : Status × KernelVmaSet × World → Prop where
  | refused {status : Status} {grown : KernelVmaSet} {next : World} (failed : status ≠ .ok)
      (contents : Grown set grown) (shm : next.shm = world.shm)
      (cause : (∃ other ∈ set.live, other.start.toNat < vma.stop.toNat ∧ vma.start.toNat < other.stop.toNat) ∨
        set.capacity ≤ set.count ∨ set.count = uint32Max) :
      Insertion set vma world (status, grown, next)
  | extended {before after : List KernelVma} {other : KernelVmaSet}
      (split : set.live = before ++ after)
      (below : ∀ a ∈ before, a.stop.toNat ≤ vma.start.toNat)
      (above : ∀ b ∈ after, vma.stop.toNat ≤ b.start.toNat)
      (detached : vma.shmAttachment = 0) (frame : Reshaped set other)
      (count : other.count ≤ set.count) (joined : Joined (before ++ vma :: after) other.live)
      (separate : Separate set.live → Separate other.live) :
      Insertion set vma world (.ok, other, world)
  | placed {before after : List KernelVma} {reserved other : KernelVmaSet} {next : World}
      (split : set.live = before ++ after)
      (below : ∀ a ∈ before, a.stop.toNat ≤ vma.start.toNat)
      (above : ∀ b ∈ after, vma.stop.toNat ≤ b.start.toNat)
      (contents : Grown set reserved) (frame : Reshaped reserved other)
      (count : other.count = set.count + 1) (room : other.count ≤ other.capacity)
      (shm : next.shm = world.shm)
      (quiet : set.count < set.capacity → reserved = set ∧ next = world)
      (live : other.live = before ++ vma :: after)
      (separate : Separate set.live → Separate other.live) :
      Insertion set vma world (.ok, other, next.shmAttachmentOpen vma)

theorem insertion_point (laid : Layout set.live) (start : UInt64) :
    ∃ pre after, set.live = pre ++ after ∧ set.lowerBound start = pre.length ∧
      (∀ a ∈ pre, a.start.toNat < start.toNat) ∧ (∀ b ∈ after, start.toNat ≤ b.start.toNat) ∧
      (∀ a ∈ pre, 0 < pre.length ∧ a.stop.toNat ≤ (set.entries (pre.length - 1)).stop.toNat) ∧
      (∀ b ∈ after, pre.length < set.count ∧ (set.entries pre.length).start.toNat ≤ b.start.toNat) := by
  obtain ⟨pre, after, split, len, lo, above⟩ := lowerBound_split laid start
  obtain ⟨_, _, size⟩ := live_parts split
  obtain ⟨first, snd, _⟩ := Layout.append_iff.mp (split ▸ laid)
  refine ⟨pre, after, split, len.symm, lo, above, ?_, ?_⟩
  · intro a mem
    rcases eq_nil_or_concat pre with none | ⟨_, last, concat⟩
    · simp [none] at mem
    rw [concat_eq_append] at concat
    subst concat
    refine ⟨by simp, ?_⟩
    rw [live_entry_last split]
    obtain ⟨_, lastLayout, ord⟩ := Layout.append_iff.mp first
    rcases mem_append.mp mem with inInitial | isLast
    · have := ord a inInitial last (by simp)
      have := (lastLayout.sound last (by simp)).nonempty
      omega
    · rw [mem_singleton.mp isLast]
  · intro b mem
    cases after with
    | nil => simp at mem
    | cons r rest =>
      refine ⟨by rw [size, length_cons]; omega, ?_⟩
      rw [live_entry split]
      obtain ⟨soundR, _, ord⟩ := Layout.cons_iff.mp snd
      rcases mem_cons.mp mem with eq | inRest
      · rw [eq]
      have := ord b inRest
      have := soundR.nonempty
      omega

theorem insertEntry_extends_left {init after : List KernelVma} {l : KernelVma} (w : World) (laid : Layout set.live)
    (sound : vma.Sound) (split : set.live = (init ++ [l]) ++ after)
    (lo : ∀ a ∈ init ++ [l], a.stop.toNat ≤ vma.start.toNat) (above : ∀ b ∈ after, vma.stop.toNat ≤ b.start.toNat)
    (joins : l.canMerge vma = true) : Insertion set vma w (if (init ++ [l]).length < set.count ∧
          (l.join vma).canMerge (set.entries (init ++ [l]).length) then
        (.ok, ((set.setEntry init.length (l.join vma)).setEntry init.length
            ((l.join vma).join (set.entries (init ++ [l]).length))).eraseEntry (init ++ [l]).length w)
      else (.ok, set.setEntry init.length (l.join vma), w)) := by
  have merge := canMerge_iff.mp joins
  have soundL := laid.sound l (by simp [split])
  have detached := (merge.detached soundL).2
  have cells : set.live = init ++ l :: after := by rw [split, append_assoc]; rfl
  have start : Joined (init ++ l :: vma :: after) (init ++ l.join vma :: after) := .step merge (.refl _)
  have seam : ∀ a ∈ init.getLast?, Separate set.live → ∀ stop, a.canMerge { l with stop := stop } = false := by
    intro a last separate stop
    rw [cells] at separate
    obtain ⟨_, _, across⟩ := isChain_append.mp separate
    exact across a last l rfl
  obtain ⟨_, _, size⟩ := live_parts split
  have listed : (init ++ [l]) ++ vma :: after = init ++ l :: vma :: after := by
    rw [append_assoc]; rfl
  split
  next both =>
    obtain ⟨_, mergesRight⟩ := both
    cases after with
    | nil => simp only [length_nil] at size; omega
    | cons r rest =>
      have rightCell := live_entry split
      rw [rightCell] at mergesRight ⊢
      have soundR := laid.sound r (by simp [split])
      have mergeRight := canMerge_iff.mp mergesRight
      have written := setEntry_live ((l.join vma).join r) (setEntry_live (l.join vma) cells)
      have shifted : ((set.setEntry init.length (l.join vma)).setEntry init.length
          ((l.join vma).join r)).live = (init ++ [(l.join vma).join r]) ++ r :: rest := by
        rw [written, append_assoc]; rfl
      have erased := eraseEntry_live w shifted
      have len : (init ++ [(l.join vma).join r]).length = (init ++ [l]).length := by
        simp
      rw [len, append_assoc] at erased
      have closed : World.shmAttachmentClose w (((set.setEntry init.length (l.join vma)).setEntry init.length
            ((l.join vma).join r)).entries (init ++ [l]).length) = w := by
        rw [← len, live_entry shifted]
        exact World.shmAttachmentClose_detached (soundR.detached (mergeRight.kind ▸ mergeRight.notSysv))
      rw [eraseEntry, closed]
      have data : _ = init ++ (l.join vma).join r :: rest := erased
      rw [eraseEntry] at data
      refine .extended split lo above detached rfl ?_ ?_ fun separate => ?_
      · dsimp only [setEntry]
        omega
      · rw [listed, data]
        exact start.trans (.step mergeRight (.refl _))
      have chain : Separate (init ++ [l, r] ++ rest) := by
        rw [cells] at separate
        simpa using separate
      rw [data]
      refine chain.replace (fun a last => seam a last separate _) fun b head => ?_
      obtain ⟨_, _, across⟩ := isChain_append.mp chain
      exact canMerge_of_join (soundL.join sound merge) soundR mergesRight (across r (by simp) b head)
  next single =>
    have written := setEntry_live (l.join vma) cells
    refine .extended split lo above detached rfl le_rfl ?_ fun separate => ?_
    · rw [listed, written]
      exact start
    rw [written]
    refine Separate.replace (split ▸ separate) (fun a last => seam a last separate _) fun b head => ?_
    cases after with
    | nil => simp at head
    | cons r rest =>
      simp only [head?_cons, Option.mem_some_iff] at head
      subst head
      rw [live_entry split] at single
      cases merges : (l.join vma).canMerge r with
      | false => rfl
      | true =>
        refine absurd ⟨?_, merges⟩ single
        rw [size, length_cons]
        omega

theorem insertEntry_extends_right {pre rest : List KernelVma} {r : KernelVma} (w : World) (laid : Layout set.live)
    (sound : vma.Sound) (split : set.live = pre ++ r :: rest) (lo : ∀ a ∈ pre, a.stop.toNat ≤ vma.start.toNat)
    (above : ∀ b ∈ r :: rest, vma.stop.toNat ≤ b.start.toNat) (apart : ∀ l ∈ pre.getLast?, l.canMerge vma = false)
    (joins : vma.canMerge r = true) : Insertion set vma w (.ok, set.setEntry pre.length (vma.join r), w) := by
  have merge := canMerge_iff.mp joins
  have soundR := laid.sound r (by simp [split])
  have written := setEntry_live (vma.join r) split
  refine .extended split lo above (merge.detached sound).1 rfl le_rfl ?_ ?_
  · rw [written]
    exact .step merge (.refl _)
  intro separate
  have chain : Separate (pre ++ [r] ++ rest) := by
    rw [split] at separate
    simpa using separate
  obtain ⟨_, _, across⟩ := isChain_append.mp chain
  rw [written]
  exact chain.replace apart fun b head => canMerge_of_join sound soundR joins (across r (by simp) b head)

theorem insertEntry_places {pre after : List KernelVma} (w : World) (split : set.live = pre ++ after)
    (lo : ∀ a ∈ pre, a.stop.toNat ≤ vma.start.toNat) (above : ∀ b ∈ after, vma.stop.toNat ≤ b.start.toNat)
    (apartLeft : ∀ l ∈ pre.getLast?, l.canMerge vma = false) (apartRight : ∀ r ∈ after.head?, vma.canMerge r = false) :
    Insertion set vma w (match set.reserveEntries (set.count + 1) w with
      | (.ok, resv, w) =>
        (.ok, resv.placeEntry pre.length vma, w.shmAttachmentOpen vma)
      | (st, resv, w) => (st, resv, w)) := by
  have res := reserveEntries_spec set (set.count + 1) w
  rcases out : set.reserveEntries (set.count + 1) w with ⟨st, resv, next⟩
  rw [out] at res
  have data : Grown set resv := res.contents
  by_cases success : st = .ok
  · subst success
    have enough : set.count + 1 ≤ resv.capacity := res.enough rfl
    have size := data.count_eq
    have live := placeEntry_live vma (data.live.trans split)
    have cnt : (resv.placeEntry pre.length vma).count = resv.count + 1 := placeEntry_count pre.length vma
    have frame : Reshaped resv (resv.placeEntry pre.length vma) := placeEntry_eq ..
    refine .placed split lo above data frame (by omega) ?_ res.shm ?_ live ?_
    · rw [frame.capacity_eq]
      omega
    · intro room
      have quiet := res.quiet (by omega)
      simp only [Prod.mk.injEq] at quiet
      exact quiet.2
    · intro separate
      rw [live]
      exact @Separate.replace pre [] after vma (by rwa [append_nil, ← split]) apartLeft apartRight
  · have failed : Insertion set vma w (st, resv, next) := by
      refine .refused success data res.shm (.inr (.inl ?_))
      by_cases fits : set.count + 1 ≤ set.capacity
      · have quiet := res.quiet fits
        simp only [Prod.mk.injEq] at quiet
        exact absurd quiet.1 success
      · omega
    cases st <;> first | exact absurd rfl success | exact failed

theorem insertEntry_spec (laid : Layout set.live) (sound : vma.Sound) (w : World) : Insertion set vma w (set.insertEntry vma w) := by
  obtain ⟨pre, after, split, i, started, beyond, leftBound, rightBound⟩ := insertion_point laid vma.start
  obtain ⟨first, snd, size⟩ := live_parts split
  have nonempty := sound.nonempty
  unfold insertEntry
  simp only [i]
  split
  next overlap =>
    refine .refused (by decide) (Grown.refl _) rfl (.inl ?_)
    rcases overlap with ⟨_, reaches⟩ | ⟨mem, reaches⟩
    · refine ⟨set.entries (pre.length - 1), entry_mem (by omega), ?_, reaches⟩
      have member : set.entries (pre.length - 1) ∈ segment set.entries 0 pre.length :=
        mem_segment.mpr ⟨pre.length - 1, by omega, by rw [zero_add]⟩
      rw [← first] at member
      have := started _ member
      omega
    have member : set.entries pre.length ∈ segment set.entries pre.length after.length := mem_segment.mpr ⟨0, by omega, rfl⟩
    rw [← snd] at member
    have := beyond _ member
    have := (laid.sound _ (entry_mem mem)).nonempty
    exact ⟨_, entry_mem mem, reaches, by omega⟩
  rename_i clear
  simp only [not_or, not_and, lt_iff_toNat_lt, not_lt] at clear
  have lo : ∀ a ∈ pre, a.stop.toNat ≤ vma.start.toNat := fun a member =>
    le_trans (leftBound a member).2 (clear.1 (leftBound a member).1)
  have above : ∀ b ∈ after, vma.stop.toNat ≤ b.start.toNat := fun b member =>
    le_trans (clear.2 (rightBound b member).1) (rightBound b member).2
  have rightCase : (∀ l ∈ pre.getLast?, l.canMerge vma = false) → Insertion set vma w
        (if pre.length < set.count ∧ vma.canMerge (set.entries pre.length) = true then
          (.ok, set.setEntry pre.length (vma.join (set.entries pre.length)), w)
        else if set.count = uint32Max then (.noMemory, set, w)
        else match set.reserveEntries (set.count + 1) w with
          | (.ok, res, w) =>
            (.ok, res.placeEntry pre.length vma, w.shmAttachmentOpen vma)
          | (st, res, w) => (st, res, w)) := by
    intro apart
    split
    next merges =>
      cases after with
      | nil => simp only [length_nil] at size; omega
      | cons r rest =>
        rw [live_entry split] at merges ⊢
        exact insertEntry_extends_right w laid sound split lo above apart merges.2
    rename_i apartRight
    split
    next full =>
      exact .refused (by decide) (Grown.refl _) rfl (.inr (.inr full))
    apply insertEntry_places w split lo above apart
    intro r head
    cases after with
    | nil => simp at head
    | cons next rest =>
      simp only [head?_cons, Option.mem_some_iff] at head
      subst head
      rw [live_entry split] at apartRight
      cases merges : vma.canMerge next with
      | false => rfl
      | true =>
        refine absurd ⟨?_, merges⟩ apartRight
        rw [size, length_cons]
        omega
  rcases eq_nil_or_concat pre with none | ⟨init, l, concat⟩
  · subst none
    rw [if_neg (by simp)]
    exact rightCase (by simp)
  rw [concat_eq_append] at concat
  subst concat
  rw [live_entry_last split]
  split
  next merges =>
    have size : (init ++ [l]).length - 1 = init.length := by simp
    rw [size]
    exact insertEntry_extends_left w laid sound split lo above merges.2
  rename_i apart
  apply rightCase
  intro k last
  rw [getLast?_append_of_ne_nil _ (by simp), getLast?_singleton, Option.mem_some_iff] at last
  subst last
  cases merges : l.canMerge vma with
  | false => rfl
  | true => exact absurd ⟨by simp, merges⟩ apart

end KernelVmaSet
end BoarOS.Vma
