import BoarOS.Pid.Numbers

namespace BoarOS.Pid
open Function List

/-! # What the identities, the chains and the numbers agree on -/

variable {ids : Nat → Identity} {numbers : Allocator} {bs : Nat → List Nat} {retired : List Nat}
  {assigned : Nat → Member} {id m : Nat} {role : Role} {ident : Identity} {extra : Nat → Nat}

def Identity.Numbered (identity : Identity) : Prop :=
  identity.registered = true ∧ (identity.published = .reserved ∨ identity.published = .indexed)

def memberCount (members : Role → List Nat) : Nat := (Role.all.map fun role => (members role).length).sum

theorem unused_iff : unused ms = true ↔ ∀ role, ms role = [] := by
  simp only [unused, all_eq_true, decide_eq_true_eq]
  exact ⟨fun all role => all role (by cases role <;> simp [Role.all]), fun all role _ => all role⟩

theorem memberCount_eq_zero : memberCount ms = 0 ↔ unused ms = true := by
  rw [unused_iff, memberCount, sum_eq_zero_iff]
  refine ⟨fun zero role => ?_, fun all n mem => ?_⟩
  · exact eq_nil_of_length_eq_zero (zero _ (mem_map_of_mem (by cases role <;> simp [Role.all])))
  obtain ⟨role, _, rfl⟩ := mem_map.mp mem
  rw [all role, length_nil]

theorem memberCount_update (ms : Role → List Nat) (role : Role) (list : List Nat) :
    memberCount (update ms role list) + (ms role).length = memberCount ms + list.length := by
  cases role <;> simp [memberCount, Role.all, update] <;> omega

structure Joined (identities : Nat → Identity) (assigned : Nat → Member) : Prop where
  nodup : ∀ id role, ((identities id).members role).Nodup
  mem : ∀ id role m, m ∈ (identities id).members role ↔ (assigned m).identity = some id ∧ (assigned m).role = role

section
variable (joined : Joined ids assigned)
include joined

theorem Joined.congr (eq : ident.members = (ids id).members) : Joined (update ids id ident) assigned := by
  have all : ∀ x, (update ids id ident x).members = (ids x).members := fun x => by
    rcases eq_or_ne x id with rfl | ne
    · rw [update_self, eq]
    · rw [update_of_ne ne]
  exact ⟨fun x role => by rw [all]; exact joined.nodup x role, fun x role m => by rw [all]; exact joined.mem x role m⟩

theorem Joined.put (ms : ident.members = update (ids id).members role list) (nodup : list.Nodup)
    (here : ∀ y, y ∈ list ↔ (post y).identity = some id ∧ (post y).role = role) (away : ∀ x r y, ¬ (x = id ∧ r = role) →
      (y ∈ (ids x).members r ↔ (post y).identity = some x ∧ (post y).role = r)) : Joined (update ids id ident) post := by
  have all : ∀ x r, (update ids id ident x).members r = if x = id ∧ r = role then list else (ids x).members r := fun x r => by
    rcases eq_or_ne x id with rfl | other
    · rw [update_self, ms]
      by_cases eq : r = role <;> simp [eq]
    · rw [update_of_ne other, if_neg (fun both => other both.1)]
  refine ⟨fun x r => ?_, fun x r y => ?_⟩ <;> rw [all] <;> split
  · exact nodup
  · exact joined.nodup x r
  next both =>
    rw [both.1, both.2]
    exact here y
  next other =>
    exact away x r y other

theorem Joined.out (free : (assigned m).identity = none) (x : Nat) (role : Role) : m ∉ (ids x).members role := by
  intro mem
  have := ((joined.mem x role m).mp mem).1
  rw [free] at this
  cases this

theorem Joined.join (free : (assigned m).identity = none) (task : Nat)
    (ms : ident.members = update (ids id).members role (m :: (ids id).members role)) :
    Joined (update ids id ident) (update assigned m ⟨some id, role, task⟩) := by
  refine joined.put ms (nodup_cons.mpr ⟨joined.out free id role, joined.nodup id role⟩) (fun y => ?_) fun x r y other => ?_
  · rcases eq_or_ne y m with rfl | ne
    · simp
    · rw [update_of_ne ne, ← joined.mem, mem_cons, or_iff_right ne]
  rcases eq_or_ne y m with rfl | ne
  · rw [update_self]
    exact ⟨fun mem => absurd mem (joined.out free x r), fun both => absurd ⟨(Option.some.inj both.1).symm, both.2.symm⟩ other⟩
  · rw [update_of_ne ne, joined.mem]

theorem Joined.leave (held : (assigned m).identity = some id)
    (ms : ident.members = update (ids id).members (assigned m).role (((ids id).members (assigned m).role).erase m)) :
    Joined (update ids id ident) (update assigned m { assigned m with identity := none, task := 0 }) := by
  refine joined.put ms ((joined.nodup id _).erase m) (fun y => ?_) fun x r y other => ?_
  · rcases eq_or_ne y m with rfl | ne
    · simp [(joined.nodup id _).mem_erase_iff]
    · rw [update_of_ne ne, ← joined.mem, mem_erase_of_ne ne]
  rcases eq_or_ne y m with rfl | ne
  · rw [update_self, joined.mem, held]
    exact ⟨fun both => absurd ⟨(Option.some.inj both.1).symm, both.2.symm⟩ other, nofun⟩
  · rw [update_of_ne ne, joined.mem]

theorem Joined.replace (task : Nat) (held : (assigned old).identity = some id) (free : (assigned new).identity = none)
    (ms : ident.members = update (ids id).members (assigned old).role
      (((ids id).members (assigned old).role).map fun x => if x = old then new else x)) :
    Joined (update ids id ident) (update (update assigned new ⟨some id, (assigned old).role, task⟩) old
        { assigned old with identity := none, task := 0 }) := by
  have ne : new ≠ old := by
    rintro rfl
    rw [held] at free
    cases free
  have out := joined.out free
  have mem : ∀ y, y ∈ ((ids id).members (assigned old).role).map (fun x => if x = old then new else x) ↔
      y = new ∨ (y ∈ (ids id).members (assigned old).role ∧ y ≠ old) := fun y => by
    simp only [mem_map]
    constructor
    · rintro ⟨z, inside, rfl⟩
      split
      · exact .inl rfl
      next away =>
        exact .inr ⟨inside, away⟩
    · rintro (rfl | ⟨inside, away⟩)
      · exact ⟨old, (joined.mem id _ old).mpr ⟨held, rfl⟩, if_pos rfl⟩
      · exact ⟨y, inside, if_neg away⟩
  refine joined.put ms ((joined.nodup id _).map_on fun a inA b inB eq => ?_) (fun y => ?_) fun x r y other => ?_
  · grind
  · rw [mem]
    rcases eq_or_ne y old with rfl | notOld
    · simp [ne.symm]
    rw [update_of_ne notOld]
    rcases eq_or_ne y new with rfl | notNew
    · simp
    · rw [update_of_ne notNew, ← joined.mem, or_iff_right notNew, and_iff_left notOld]
  rcases eq_or_ne y old with rfl | notOld
  · rw [update_self, joined.mem, held]
    exact ⟨fun both => absurd ⟨(Option.some.inj both.1).symm, both.2.symm⟩ other, nofun⟩
  rw [update_of_ne notOld]
  rcases eq_or_ne y new with rfl | notNew
  · rw [update_self]
    exact ⟨fun inside => absurd inside (out x r), fun both => absurd ⟨(Option.some.inj both.1).symm, both.2.symm⟩ other⟩
  · rw [update_of_ne notNew, joined.mem]

end

/-- Every reference is a handle, a member or one that a call is about to drop. -/
structure Identity.Counted (extra : Nat) (identity : Identity) : Prop where
  held : identity.registered = true → identity.references = identity.handles + memberCount identity.members + extra ∧
      identity.references ≠ 0 ∧ identity.published ≠ .retired
  free : identity.registered = false → identity.references = 0 ∧ identity.handles = 0 ∧
    unused identity.members = true ∧ extra = 0 ∧ (identity.published = .reserved ∨ identity.published = .retired)

/-- What the chains and the numbers see of an identity. -/
def Identity.key (identity : Identity) : Bool × Published × Nat × Nat :=
  (identity.registered, identity.published, identity.number, identity.generation)

theorem key_update (eq : ident.key = (ids id).key) (x : Nat) : (update ids id ident x).key = (ids x).key := by
  rcases eq_or_ne x id with rfl | ne
  · rw [update_self, eq]
  · rw [update_of_ne ne]

/-- The chains hold exactly the indexed identities and the retired ones. -/
structure Chained (identities : Nat → Identity) (buckets : Nat → List Nat) (retired : List Nat) : Prop where
  bucketNodup : ∀ b, (buckets b).Nodup
  bucket : ∀ b id, id ∈ buckets b ↔ (identities id).published = .indexed ∧ (identities id).number % kernelPidBuckets = b
  retiredNodup : retired.Nodup
  retired : ∀ id, id ∈ retired ↔ (identities id).published = .retired

section
variable (chained : Chained ids bs retired)
include chained

theorem Chained.congr (eq : ident.key = (ids id).key) : Chained (update ids id ident) bs retired := by
  have all := key_update eq
  simp only [Identity.key, Prod.mk.injEq] at all
  exact ⟨chained.bucketNodup, fun b x => by rw [(all x).2.1, (all x).2.2.1]; exact chained.bucket b x,
    chained.retiredNodup, fun x => by rw [(all x).2.1]; exact chained.retired x⟩

theorem Chained.put {chains : Nat → List Nat} {kept : List Nat} (distinct : ∀ b, (chains b).Nodup) (apart : kept.Nodup)
    (mine : ∀ b, id ∈ chains b ↔ ident.published = .indexed ∧ ident.number % kernelPidBuckets = b)
    (gone : id ∈ kept ↔ ident.published = .retired) (others : ∀ b x, x ≠ id → (x ∈ chains b ↔ x ∈ bs b))
    (rest : ∀ x, x ≠ id → (x ∈ kept ↔ x ∈ retired)) : Chained (update ids id ident) chains kept := by
  refine ⟨distinct, fun b x => ?_, apart, fun x => ?_⟩ <;> rcases eq_or_ne x id with rfl | ne
  · rw [update_self]
    exact mine b
  · rw [update_of_ne ne, others b x ne, chained.bucket]
  · rw [update_self]
    exact gone
  · rw [update_of_ne ne, rest x ne, chained.retired]

theorem Chained.outside (pre : (ids id).published ≠ .indexed ∧ (ids id).published ≠ .retired)
    (post : ident.published ≠ .indexed ∧ ident.published ≠ .retired) : Chained (update ids id ident) bs retired := by
  refine chained.put chained.bucketNodup chained.retiredNodup (fun b => ?_) ?_ (fun _ _ _ => Iff.rfl) fun _ _ => Iff.rfl
  · simp [chained.bucket, pre.1, post.1]
  · simp [chained.retired, pre.2, post.2]

theorem Chained.link (pre : (ids id).published ≠ .indexed ∧ (ids id).published ≠ .retired)
    (post : ident.published = .indexed) : Chained (update ids id ident)
      (update bs (ident.number % kernelPidBuckets) (id :: bs (ident.number % kernelPidBuckets))) retired := by
  refine chained.put (Function.forall_update_iff bs (fun _ list => list.Nodup) |>.mpr ⟨nodup_cons.mpr
    ⟨fun mem => pre.1 ((chained.bucket _ id).mp mem).1, chained.bucketNodup _⟩,
    fun b _ => chained.bucketNodup b⟩) chained.retiredNodup (fun b => ?_) ?_ (fun b x ne => ?_) fun _ _ => Iff.rfl
  · rw [update_apply]
    split
    next here =>
      simp [post, here]
    next away =>
      rw [chained.bucket]
      simp [pre.1, Ne.symm away]
  · simp [chained.retired, pre.2, post]
  · rw [update_apply]
    split
    next here =>
      simp [ne, here]
    · rfl

theorem Chained.unlink (pre : (ids id).published = .indexed) (post : ident.published ≠ .indexed ∧ ident.published ≠ .retired) :
    Chained (update ids id ident) (update bs ((ids id).number % kernelPidBuckets)
        ((bs ((ids id).number % kernelPidBuckets)).erase id)) retired := by
  refine chained.put (Function.forall_update_iff bs (fun _ list => list.Nodup) |>.mpr
    ⟨(chained.bucketNodup _).erase id, fun b _ => chained.bucketNodup b⟩) chained.retiredNodup (fun b => ?_) ?_
    (fun b x ne => ?_) fun _ _ => Iff.rfl
  · rw [update_apply]
    split
    · simp [(chained.bucketNodup _).mem_erase_iff, post.1]
    next away =>
      rw [chained.bucket]
      simp [post.1, Ne.symm away]
  · simp [chained.retired, pre, post.2]
  · rw [update_apply]
    split
    next here =>
      rw [mem_erase_of_ne ne, here]
    · rfl

theorem Chained.retire (pre : (ids id).published ≠ .indexed ∧ (ids id).published ≠ .retired)
    (post : ident.published = .retired) : Chained (update ids id ident) bs (id :: retired) := by
  refine chained.put chained.bucketNodup
    (nodup_cons.mpr ⟨fun mem => pre.2 ((chained.retired id).mp mem), chained.retiredNodup⟩) (fun b => ?_)
    (by simp [post]) (fun _ _ _ => Iff.rfl) fun x ne => ?_
  · simp [chained.bucket, pre.1, post]
  · rw [mem_cons, or_iff_right ne]

end

theorem Chained.take (chained : Chained ids bs (id :: rest))
    (post : ident.published = .reserved) : Chained (update ids id ident) bs rest := by
  obtain ⟨out, nodup⟩ := nodup_cons.mp chained.retiredNodup
  have was := (chained.retired id).mp (.head _)
  refine chained.put chained.bucketNodup nodup (fun b => ?_) (by simp [post, out]) (fun _ _ _ => Iff.rfl) fun x ne => ?_
  · simp [chained.bucket, was, post]
  · rw [mem_cons, or_iff_right ne]

/-- The set bits are the numbers that identities have, each one's own. -/
structure Assigned (identities : Nat → Identity) (numbers : Allocator) : Prop where
  ok : numbers.Ok
  taken : ∀ index, numbers.taken index = true ↔ ∃ id, (identities id).Numbered ∧ (identities id).number = index + 1
  positive : ∀ id, (identities id).Numbered → 0 < (identities id).number
  unique : ∀ a b, (identities a).Numbered → (identities b).Numbered → (identities a).number = (identities b).number → a = b

theorem Assigned.congr (assigned : Assigned ids numbers) (numbered : ident.Numbered ↔ (ids id).Numbered)
    (eq : ident.number = (ids id).number) : Assigned (update ids id ident) numbers := by
  have all : ∀ x, ((update ids id ident x).Numbered ↔ (ids x).Numbered) ∧ (update ids id ident x).number = (ids x).number := fun x => by
    rcases eq_or_ne x id with rfl | ne
    · rw [update_self]
      exact ⟨numbered, eq⟩
    · rw [update_of_ne ne]
      exact ⟨Iff.rfl, rfl⟩
  refine ⟨assigned.ok, fun i => ?_, fun x has => ?_, fun a b hasA hasB equal => ?_⟩
  · rw [assigned.taken]
    exact exists_congr fun x => by rw [(all x).1, (all x).2]
  · rw [(all x).2]
    exact assigned.positive x ((all x).1.mp has)
  · rw [(all a).2, (all b).2] at equal
    exact assigned.unique a b ((all a).1.mp hasA) ((all b).1.mp hasB) equal

theorem Assigned.take (assigned : Assigned ids numbers) (ok : post.Ok) (free : numbers.taken i = false)
    (set : ∀ j, post.taken j = if j = i then true else numbers.taken j) (pre : ¬ (ids id).Numbered)
    (has : ident.Numbered) (num : ident.number = i + 1) : Assigned (update ids id ident) post := by
  have rest : ∀ x, (ids x).Numbered → x ≠ id ∧ (ids x).number ≠ i + 1 := fun x numbered =>
    ⟨fun eq => pre (eq ▸ numbered), fun eq => by
      rw [(assigned.taken i).mpr ⟨x, numbered, eq⟩] at free
      cases free⟩
  have cases_ : ∀ x, (update ids id ident x).Numbered → x = id ∨ (ids x).Numbered :=
    fun x numbered => by
      rcases eq_or_ne x id with rfl | ne
      · exact .inl rfl
      rw [update_of_ne ne] at numbered
      exact .inr numbered
  refine ⟨ok, fun j => ?_, fun x numbered => ?_, fun a b hasA hasB equal => ?_⟩
  · rw [set]
    split
    next here =>
      simp only [true_iff]
      exact ⟨id, by rw [update_self]; exact ⟨has, by rw [num, here]⟩⟩
    rename_i away
    rw [assigned.taken]
    constructor
    · rintro ⟨x, numbered, eq⟩
      exact ⟨x, by rw [update_of_ne (rest x numbered).1]; exact ⟨numbered, eq⟩⟩
    rintro ⟨x, numbered, eq⟩
    rcases eq_or_ne x id with rfl | ne
    · rw [update_self, num] at eq
      exact absurd (Nat.succ.inj eq).symm away
    · rw [update_of_ne ne] at numbered eq
      exact ⟨x, numbered, eq⟩
  · rcases eq_or_ne x id with rfl | ne
    · rw [update_self, num]
      exact Nat.succ_pos _
    · rw [update_of_ne ne] at numbered ⊢
      exact assigned.positive x numbered
  · rcases cases_ a hasA with rfl | oldA <;> rcases cases_ b hasB with rfl | oldB
    · rfl
    · rw [update_self, update_of_ne (rest b oldB).1, num] at equal
      exact absurd equal.symm (rest b oldB).2
    · rw [update_self, update_of_ne (rest a oldA).1, num] at equal
      exact absurd equal (rest a oldA).2
    · rw [update_of_ne (rest a oldA).1, update_of_ne (rest b oldB).1] at equal
      exact assigned.unique a b oldA oldB equal

theorem Assigned.give (assigned : Assigned ids numbers) (ok : post.Ok)
    (clear : ∀ j, post.taken j = if j = (ids id).number - 1 then false else numbers.taken j) (pre : (ids id).Numbered)
    (gone : ¬ ident.Numbered) : Assigned (update ids id ident) post := by
  have old : ∀ x, (update ids id ident x).Numbered → x ≠ id ∧ (ids x).Numbered :=
    fun x has => by
      rcases eq_or_ne x id with rfl | ne
      · rw [update_self] at has
        exact absurd has gone
      · rw [update_of_ne ne] at has
        exact ⟨ne, has⟩
  have pos := assigned.positive id pre
  refine ⟨ok, fun j => ?_, fun x has => ?_, fun a b hasA hasB equal => ?_⟩
  · rw [clear]
    split
    · simp only [Bool.false_eq_true, false_iff]
      rintro ⟨x, has, eq⟩
      obtain ⟨ne, was⟩ := old x has
      rw [update_of_ne ne] at eq
      exact ne (assigned.unique x id was pre (by omega))
    rw [assigned.taken]
    constructor
    · rintro ⟨x, has, eq⟩
      have ne : x ≠ id := by
        rintro rfl
        omega
      exact ⟨x, by rw [update_of_ne ne]; exact ⟨has, eq⟩⟩
    · rintro ⟨x, has, eq⟩
      obtain ⟨ne, was⟩ := old x has
      rw [update_of_ne ne] at eq
      exact ⟨x, was, eq⟩
  · obtain ⟨ne, was⟩ := old x has
    rw [update_of_ne ne]
    exact assigned.positive x was
  · obtain ⟨otherA, wasA⟩ := old a hasA
    obtain ⟨otherB, wasB⟩ := old b hasB
    rw [update_of_ne otherA, update_of_ne otherB] at equal
    exact assigned.unique a b wasA wasB equal

/-- Every reservation has its own generation, gives its number back once and is then retired once. -/
structure Dated (identities : Nat → Identity) (nextGeneration : Nat)
    (reservations returned retirements : List Nat) : Prop where
  order : 1 ≤ nextGeneration ∧ reservations = List.range' 1 (nextGeneration - 1)
  live : ∀ id, (identities id).registered = true → (identities id).generation ∈ reservations ∧ (identities id).generation ∉ retirements ∧
      ((identities id).generation ∈ returned ↔ (identities id).published = .detached)
  distinct : ∀ a b, (identities a).registered = true → (identities b).registered = true →
    (identities a).generation = (identities b).generation → a = b
  lives : ∀ g ∈ reservations, g ∉ retirements → ∃ id, (identities id).registered = true ∧ (identities id).generation = g
  once : returned.Nodup ∧ retirements.Nodup ∧ (∀ g ∈ retirements, g ∈ returned) ∧ ∀ g ∈ returned, g ∈ reservations

variable {nextGeneration : Nat} {reservations returned retirements : List Nat}

section
variable (dated : Dated ids nextGeneration reservations returned retirements)
include dated

theorem Dated.same (reg : ident.registered = (ids id).registered) (gen : ident.generation = (ids id).generation)
    (back : ∀ x, (ids x).registered = true → ((ids x).generation ∈ returned ↔ (ids x).published = .detached) →
      ((ids x).generation ∈ given ↔ (update ids id ident x).published = .detached))
    (once : given.Nodup ∧ retirements.Nodup ∧ (∀ g ∈ retirements, g ∈ given) ∧ ∀ g ∈ given, g ∈ reservations) :
    Dated (update ids id ident) nextGeneration reservations given retirements := by
  have all : ∀ x, (update ids id ident x).registered = (ids x).registered ∧
      (update ids id ident x).generation = (ids x).generation := fun x => by
    rcases eq_or_ne x id with rfl | ne
    · rw [update_self]
      exact ⟨reg, gen⟩
    · rw [update_of_ne ne]
      exact ⟨rfl, rfl⟩
  refine ⟨dated.order, fun x live => ?_, fun a b liveA liveB equal => ?_, fun g res act => ?_, once⟩
  · rw [(all x).1] at live
    obtain ⟨res, act, old⟩ := dated.live x live
    rw [(all x).2]
    exact ⟨res, act, back x live old⟩
  · rw [(all a).1] at liveA
    rw [(all b).1] at liveB
    rw [(all a).2, (all b).2] at equal
    exact dated.distinct a b liveA liveB equal
  · obtain ⟨x, live, eq⟩ := dated.lives g res act
    exact ⟨x, by rwa [(all x).1], by rwa [(all x).2]⟩

theorem Dated.congr (reg : ident.registered = (ids id).registered) (gen : ident.generation = (ids id).generation)
    (pub : ident.registered = true → (ident.published = .detached ↔ (ids id).published = .detached)) :
    Dated (update ids id ident) nextGeneration reservations returned retirements := by
  refine dated.same reg gen (fun x live back => back.trans ?_) dated.once
  rcases eq_or_ne x id with rfl | ne
  · rw [update_self]
    exact (pub (reg.trans live)).symm
  · rw [update_of_ne ne]

theorem Dated.reserve (pre : (ids id).registered = false) (reg : ident.registered = true) (gen : ident.generation = nextGeneration)
    (pub : ident.published ≠ .detached) : Dated (update ids id ident) (nextGeneration + 1) (reservations ++ [nextGeneration]) returned
      retirements := by
  obtain ⟨pos, range⟩ := dated.order
  have fresh : nextGeneration ∉ reservations := by
    rw [range, mem_range'_1]
    omega
  have old : ∀ x, (ids x).registered = true → x ≠ id := fun x live eq => by
    rw [eq, pre] at live
    cases live
  obtain ⟨returnedNodup, retiredNodup, subset, known⟩ := dated.once
  refine ⟨⟨by omega, ?_⟩, fun x live => ?_, fun a b liveA liveB equal => ?_, fun g res act => ?_, returnedNodup,
    retiredNodup, subset, fun g mem => mem_append_left _ (known g mem)⟩
  · rw [range, Nat.add_sub_cancel]
    obtain ⟨n, rfl⟩ := Nat.exists_eq_add_of_le' pos
    rw [Nat.add_sub_cancel, List.range'_1_concat, add_comm 1 n]
  · rcases eq_or_ne x id with rfl | ne
    · rw [update_self, gen]
      exact ⟨mem_append_right _ mem_cons_self, fun mem => fresh (known _ (subset _ mem)),
        fun mem => absurd (known _ mem) fresh, fun eq => absurd eq pub⟩
    · rw [update_of_ne ne] at live ⊢
      obtain ⟨res, rest⟩ := dated.live x live
      exact ⟨mem_append_left _ res, rest⟩
  · rcases eq_or_ne a id with hereA | otherA <;> rcases eq_or_ne b id with hereB | otherB
    · rw [hereA, hereB]
    · rw [hereA, update_self, gen, update_of_ne otherB] at equal
      rw [update_of_ne otherB] at liveB
      exact absurd (equal ▸ (dated.live b liveB).1) fresh
    · rw [hereB, update_self, gen, update_of_ne otherA] at equal
      rw [update_of_ne otherA] at liveA
      exact absurd (equal ▸ (dated.live a liveA).1) fresh
    · rw [update_of_ne otherA] at liveA equal
      rw [update_of_ne otherB] at liveB equal
      exact dated.distinct a b liveA liveB equal
  · rcases mem_append.mp res with earlier | new
    · obtain ⟨x, live, eq⟩ := dated.lives g earlier act
      exact ⟨x, by rw [update_of_ne (old x live)]; exact ⟨live, eq⟩⟩
    · exact ⟨id, by rw [update_self, gen]; exact ⟨reg, (mem_singleton.mp new).symm⟩⟩

theorem Dated.give (live : (ids id).registered = true) (pre : (ids id).published ≠ .detached)
    (reg : ident.registered = true) (gen : ident.generation = (ids id).generation) (pub : ident.published = .detached) :
    Dated (update ids id ident) nextGeneration reservations (returned ++ [(ids id).generation]) retirements := by
  obtain ⟨res, -, back⟩ := dated.live id live
  have out : (ids id).generation ∉ returned := fun mem => pre (back.mp mem)
  obtain ⟨returnedNodup, retiredNodup, subset, known⟩ := dated.once
  refine dated.same (reg.trans live.symm) gen (fun x liveX backX => ?_)
    ⟨returnedNodup.append (nodup_singleton _) (by simpa using out), retiredNodup,
      fun g mem => mem_append_left _ (subset g mem), fun g mem => ?_⟩
  · rw [mem_append, mem_singleton, backX]
    rcases eq_or_ne x id with rfl | ne
    · simp [pub]
    rw [update_of_ne ne]
    simp only [or_iff_left_iff_imp]
    exact fun eq => absurd (dated.distinct x id liveX live eq) ne
  · rcases mem_append.mp mem with old | new
    · exact known g old
    · rw [mem_singleton.mp new]
      exact res

theorem Dated.retire (live : (ids id).registered = true) (pre : (ids id).published = .detached) (reg : ident.registered = false) :
    Dated (update ids id ident) nextGeneration reservations returned (retirements ++ [(ids id).generation]) := by
  obtain ⟨_, act, back⟩ := dated.live id live
  obtain ⟨returnedNodup, retiredNodup, subset, known⟩ := dated.once
  have old : ∀ x, (update ids id ident x).registered = true → x ≠ id ∧ (ids x).registered = true := fun x liveX => by
    rcases eq_or_ne x id with rfl | ne
    · rw [update_self, reg] at liveX
      cases liveX
    · rw [update_of_ne ne] at liveX
      exact ⟨ne, liveX⟩
  refine ⟨dated.order, fun x liveX => ?_, fun a b liveA liveB equal => ?_, fun g mem activeG => ?_,
    returnedNodup, retiredNodup.append (nodup_singleton _) (by simpa using act), fun g mem => ?_, known⟩
  · obtain ⟨ne, was⟩ := old x liveX
    rw [update_of_ne ne]
    obtain ⟨reservedX, activeX, backX⟩ := dated.live x was
    refine ⟨reservedX, fun mem => ?_, backX⟩
    rcases mem_append.mp mem with earlier | new
    · exact activeX earlier
    · exact ne (dated.distinct x id was live (mem_singleton.mp new))
  · obtain ⟨otherA, wasA⟩ := old a liveA
    obtain ⟨otherB, wasB⟩ := old b liveB
    rw [update_of_ne otherA, update_of_ne otherB] at equal
    exact dated.distinct a b wasA wasB equal
  · rw [mem_append, not_or] at activeG
    obtain ⟨x, liveX, eq⟩ := dated.lives g mem activeG.1
    have ne : x ≠ id := fun here => activeG.2 (by rw [← eq, here]; exact (.head _))
    exact ⟨x, by rw [update_of_ne ne]; exact ⟨liveX, eq⟩⟩
  · rcases mem_append.mp mem with earlier | new
    · exact subset g earlier
    · rw [mem_singleton.mp new]
      exact back.mpr pre

end
end BoarOS.Pid
