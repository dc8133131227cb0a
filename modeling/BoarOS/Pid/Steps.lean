import BoarOS.Pid.Invariant

namespace BoarOS.Pid
open Function List Option Bool

/-! # Every call keeps the registry consistent -/

variable {s s' : Registry} {id m : Nat} {ident : Identity} {extra : Nat → Nat}

namespace Registry

structure Linked (s : Registry) : Prop where
  joined : Joined s.identities s.members
  chained : Chained s.identities s.buckets s.retired
  numbers : Assigned s.identities s.numbers
  dated : Dated s.identities s.nextGeneration s.reservations s.returned s.retirements

/-- The registry between calls, or in a call that has yet to drop `extra` references. -/
structure Consistent (extra : Nat → Nat) (s : Registry) : Prop extends s.Linked where
  counted : ∀ id, (s.identities id).Counted (extra id)

def dropping (id : Nat) : Nat → Nat := update (fun _ => 0) id 1
theorem dropping_of_ne (ne : x ≠ id) : dropping id x = 0 := update_of_ne ne ..

theorem consistent_initial (bounds : 0 < lim ∧ lim ≤ int32Max) : (initial lim).Consistent fun _ => 0 where
  joined := ⟨fun _ _ => nodup_nil, fun _ _ _ => by simp [initial]⟩
  counted id := ⟨fun live => (false_ne_true live).elim, fun _ => ⟨rfl, rfl, rfl, rfl, .inl rfl⟩⟩
  chained := ⟨fun _ => nodup_nil, fun _ _ => by simp [initial], nodup_nil, fun _ => by simp [initial]⟩
  numbers := ⟨.initial bounds, fun i => by simp [initial, Allocator.taken, Identity.Numbered],
    fun _ has => (false_ne_true has.1).elim, fun _ _ has => (false_ne_true has.1).elim⟩
  dated := ⟨⟨Nat.le_refl 1, rfl⟩, fun _ live => (false_ne_true live).elim,
    fun _ _ live => (false_ne_true live).elim, fun _ mem => by simp [initial] at mem,
    nodup_nil, nodup_nil, fun _ mem => mem, fun _ mem => mem⟩

namespace Consistent
section
variable (inv : s.Consistent extra)
include inv

theorem registered_of_published (pub : (s.identities id).published = .indexed ∨ (s.identities id).published = .detached) :
    (s.identities id).registered = true := by
  cases live : (s.identities id).registered with
  | true => rfl
  | false =>
    obtain ⟨_, _, _, _, st⟩ := (inv.counted id).free live
    rcases pub with eq | eq <;> rw [eq] at st <;> simp at st

theorem registered_of_extra (id : Nat) (more : extra id ≠ 0) : (s.identities id).registered = true := by
  cases live : (s.identities id).registered with
  | true => rfl
  | false => exact absurd ((inv.counted id).free live).2.2.2.1 more

theorem numbered_of_indexed (pub : (s.identities id).published = .indexed) : (s.identities id).Numbered :=
  ⟨inv.registered_of_published (.inl pub), .inr pub⟩

theorem numbered_iff (live : (s.identities id).registered = true) :
    (s.identities id).Numbered ↔ (s.identities id).published ≠ .detached := by
  have act := ((inv.counted id).held live).2.2
  cases pub : (s.identities id).published <;> simp_all [Identity.Numbered]

theorem find_eq_some (num : Int) : s.find num = some id ↔
      (s.identities id).published = .indexed ∧ ((s.identities id).number : Int) = num := by
  unfold find
  constructor
  · intro got
    split at got
    · cases got
    have mem := mem_of_find?_eq_some got
    have eq := find?_some got
    simp only [decide_eq_true_eq] at eq
    exact ⟨((inv.chained.bucket _ id).mp mem).1, by omega⟩
  rintro ⟨pub, rfl⟩
  have has := inv.numbered_of_indexed pub
  have pos := inv.numbers.positive id has
  rw [if_neg (by omega), Int.toNat_natCast]
  have mem := (inv.chained.bucket _ id).mpr ⟨pub, rfl⟩
  cases got : (s.buckets ((s.identities id).number % kernelPidBuckets)).find?
      (fun x => (s.identities x).number = (s.identities id).number) with
  | none =>
    have ne := find?_eq_none.mp got id mem
    simp at ne
  | some x =>
    have other := (inv.chained.bucket _ x).mp (mem_of_find?_eq_some got)
    have eq := find?_some got
    simp only [decide_eq_true_eq] at eq
    rw [inv.numbers.unique x id (inv.numbered_of_indexed other.1) has eq]

end
end Consistent

theorem linkAfter_of_notMem (out : id ∉ chain) : linkAfter id chain = none := by
  induction chain with
  | nil => rfl
  | cons first rest ih =>
    obtain ⟨ne, out⟩ := not_or.mp (mt mem_cons.mpr out)
    rw [linkAfter, if_neg (Ne.symm ne), ih out]

theorem Linked.hashNext (link : s.Linked) (pub : (s.identities id).published = .reserved) : s.hashNext id = none := by
  unfold Registry.hashNext
  rw [linkAfter_of_notMem, linkAfter_of_notMem, or_none]
  · rw [link.chained.retired, pub]
    simp
  · rw [link.chained.bucket, pub]
    simp

theorem counted_update (cnt : ∀ x, (s.identities x).Counted (extra x)) {more : Nat → Nat} (new : ident.Counted (more id))
    (rest : ∀ x, x ≠ id → more x = extra x) (x : Nat) : (update s.identities id ident x).Counted (more x) := by
  rcases eq_or_ne x id with rfl | ne
  · rw [update_self]
    exact new
  · rw [update_of_ne ne, rest x ne]
    exact cnt x

theorem Linked.recount (link : s.Linked) (key : ident.key = (s.identities id).key)
    (ms : ident.members = (s.identities id).members) : (s.setIdentity id ident).Linked := by
  have fields := key
  simp only [Identity.key, Prod.mk.injEq] at fields
  obtain ⟨reg, pub, num, gen⟩ := fields
  exact ⟨link.joined.congr ms, link.chained.congr key, link.numbers.congr (by unfold Identity.Numbered; rw [reg, pub]) num,
    link.dated.congr reg gen fun _ => by rw [pub]⟩

theorem Consistent.reserve (inv : s.Consistent fun _ => 0) (id : Nat) : (s.reserve id).2.Consistent fun _ => 0 := by
  dsimp only [Registry.reserve]
  split
  · exact inv
  rename_i prep
  push Not at prep
  obtain ⟨idle, res, _⟩ := prep
  have idle : (s.identities id).registered = false := by simpa using idle
  split
  · exact inv
  rcases inv.numbers.ok.allocate with ⟨full, _⟩ | ⟨i, numbers, taken, _, free, _, ok, _, set⟩
  · rw [full]
    exact inv
  rw [taken]
  obtain ⟨_, _, unusedMembers, _⟩ := (inv.counted id).free idle
  have link : Linked { s.setIdentity id { s.identities id with
        number := i + 1, generation := s.nextGeneration, references := 1, registered := true, handles := 1 } with
      numbers := numbers
      nextGeneration := s.nextGeneration + 1
      reservations := s.reservations ++ [s.nextGeneration] } :=
    ⟨inv.joined.congr rfl, inv.chained.outside (by simp [res]) (by simp [res]),
      inv.numbers.take ok free set (fun has => by simp [has.1] at idle) ⟨rfl, .inl res⟩ rfl,
      inv.dated.reserve idle rfl rfl (by simp [res])⟩
  refine ⟨link, counted_update inv.counted ⟨fun _ => ⟨?_, by simp, by simp [res]⟩, fun live => by cases live⟩ fun _ _ => rfl⟩
  rw [memberCount_eq_zero.mpr unusedMembers]

theorem Consistent.publishReserved (inv : s.Consistent extra) (id : Nat) :
    ∃ st s', s.publishReserved id = some (st, s') ∧ s'.Consistent extra := by
  dsimp only [Registry.publishReserved]
  split
  · exact ⟨_, _, rfl, inv⟩
  rename_i prep
  push Not at prep
  obtain ⟨live, _, res⟩ := prep
  have live : (s.identities id).registered = true := by simpa using live
  have hidden : s.find (s.identities id).number = none := by
    cases got : s.find (s.identities id).number with
    | none => rfl
    | some x =>
      obtain ⟨pub, _⟩ := (inv.find_eq_some _).mp got
      have := inv.numbers.unique x id (inv.numbered_of_indexed pub) ⟨live, .inl res⟩ (by omega)
      rw [this, res] at pub
      cases pub
  rw [if_neg (by simp [hidden, inv.hashNext res])]
  refine ⟨_, _, rfl, ⟨inv.joined.congr rfl, inv.chained.link (by simp [res]) rfl, inv.numbers.congr (by simp [Identity.Numbered, res]) rfl,
    inv.dated.congr rfl rfl fun _ => by simp [res]⟩,
    counted_update inv.counted ⟨fun held => ?_, fun idle => ?_⟩ fun _ _ => rfl⟩
  · obtain ⟨n, some, _⟩ := (inv.counted id).held held
    exact ⟨n, some, by simp⟩
  · exact absurd (live.symm.trans idle) (by simp)

theorem Consistent.publish (inv : s.Consistent fun _ => 0) (id : Nat) :
    ∃ st s', s.publish id = some (st, s') ∧ s'.Consistent fun _ => 0 := by
  have res := inv.reserve id
  unfold Registry.publish
  cases out : s.reserve id with
  | mk st next =>
    rw [out] at res
    cases st <;> first | exact res.publishReserved id | exact ⟨_, _, rfl, res⟩

theorem Consistent.get (inv : s.Consistent fun _ => 0) (got : s.get id = some s') : s'.Consistent fun _ => 0 := by
  dsimp only [Registry.get] at got
  split at got
  · cases got
  rename_i fine
  push Not at fine
  obtain ⟨live, act, _⟩ := fine
  rw [← some.inj got]
  have live : (s.identities id).registered = true := by simpa using live
  obtain ⟨n, _⟩ := (inv.counted id).held live
  refine ⟨inv.toLinked.recount rfl rfl, counted_update inv.counted ⟨fun _ => ⟨?_, by simp, act⟩, fun idle => ?_⟩ fun _ _ => rfl⟩
  · dsimp only
    omega
  · exact absurd (live.symm.trans idle) (by simp)

theorem Linked.detachNumber (link : s.Linked) (id : Nat) (has : (s.identities id).Numbered) :
    ∃ s', s.detachNumber id = some s' ∧ s'.Linked ∧
      s'.identities = update s.identities id { s.identities id with published := .detached } := by
  obtain ⟨live, st⟩ := has
  have pos := link.numbers.positive id ⟨live, st⟩
  have set : s.numbers.taken ((s.identities id).number - 1) = true := (link.numbers.taken _).mpr ⟨id, ⟨live, st⟩, by omega⟩
  obtain ⟨numbers, freed, ok, _, clear⟩ := link.numbers.ok.release pos set
  have join : Joined (update s.identities id { s.identities id with published := .detached }) s.members := link.joined.congr rfl
  have given : Assigned (update s.identities id { s.identities id with published := .detached }) numbers :=
    link.numbers.give ok clear ⟨live, st⟩ (by simp [Identity.Numbered])
  have dated : Dated (update s.identities id { s.identities id with published := .detached })
      s.nextGeneration s.reservations (s.returned ++ [(s.identities id).generation]) s.retirements :=
    link.dated.give live (by rcases st with eq | eq <;> simp [eq]) live rfl rfl
  dsimp only [Registry.detachNumber]
  rcases st with res | indexed
  · rw [if_neg (by simp [res]), if_neg (by simp [res, link.hashNext res]), bind_some, freed]
    exact ⟨_, rfl, ⟨join, link.chained.outside (by simp [res]) (by simp), given, dated⟩, rfl⟩
  · rw [if_pos indexed, if_pos ((link.chained.bucket _ id).mpr ⟨indexed, rfl⟩), bind_some, freed]
    exact ⟨_, rfl, ⟨join, link.chained.unlink indexed (by simp), given, dated⟩, rfl⟩

theorem Linked.retire (link : s.Linked) (id : Nat) (live : (s.identities id).registered = true)
    (detached : (s.identities id).published = .detached) :
    Linked { s.setIdentity id { s.identities id with published := .retired, registered := false } with
      retired := id :: s.retired
      retirements := s.retirements ++ [(s.identities id).generation] } :=
  ⟨link.joined.congr rfl, link.chained.retire (by simp [detached]) rfl,
    link.numbers.congr (by simp [Identity.Numbered, detached]) rfl, link.dated.retire live detached rfl⟩

theorem Consistent.drop (inv : s.Consistent (dropping id)) : ∃ s', s.drop id = some s' ∧ s'.Consistent fun _ => 0 := by
  have one : dropping id id = 1 := update_self ..
  have rest : ∀ x, x ≠ id → 0 = dropping id x := fun x k => (dropping_of_ne k).symm
  have live := inv.registered_of_extra id (by rw [one]; exact one_ne_zero)
  obtain ⟨n, some, act⟩ := (inv.counted id).held live
  have lowered : (s.setIdentity id { s.identities id with references := (s.identities id).references - 1 }).Linked :=
    inv.toLinked.recount rfl rfl
  dsimp only [Registry.drop]
  rw [if_neg (by simp [live, some, act])]
  split
  next more =>
    refine ⟨_, rfl, lowered, counted_update inv.counted ⟨fun _ => ⟨?_, more, act⟩, fun idle => ?_⟩ rest⟩
    · dsimp only
      omega
    · exact absurd (live.symm.trans idle) (by simp)
  have idle : unused (s.identities id).members = true := memberCount_eq_zero.mp (by omega)
  have old : ∀ x, (update s.identities id { s.identities id with
      references := (s.identities id).references - 1, published := .retired, registered := false } x).Counted 0 :=
    counted_update inv.counted ⟨fun held => (false_ne_true held).elim,
      fun _ => ⟨by dsimp only; omega, by dsimp only; omega, idle, rfl, .inr rfl⟩⟩ rest
  rw [if_neg (by simp [idle])]
  by_cases detached : (s.identities id).published = .detached
  · rw [if_neg (by simp [detached])]
    have left := lowered.retire id (by simp [setIdentity, live]) (by simp [setIdentity, detached])
    simp only [setIdentity, update_self, update_idem] at left
    refine ⟨_, rfl, ?_⟩
    simp only [setIdentity, update_self, update_idem]
    exact ⟨left, old⟩
  rw [if_pos detached]
  have has : ((s.setIdentity id { s.identities id with
      references := (s.identities id).references - 1 }).identities id).Numbered := by
    simp only [setIdentity, update_self]
    exact (inv.numbered_iff live).mpr detached
  obtain ⟨next, given, link, ids⟩ := lowered.detachNumber id has
  simp only [setIdentity, update_self] at ids
  have gen : (s.identities id).generation = (next.identities id).generation := by
    rw [ids, update_self]
  rw [given, gen]
  refine ⟨_, rfl, link.retire id (by rwa [ids, update_self]) (by rw [ids, update_self]), ?_⟩
  simp only [setIdentity, ids, update_self, update_idem]
  exact old

section
variable (inv : s.Consistent fun _ => 0)
include inv

namespace Consistent

theorem put (held : 0 < (s.identities id).handles) : ∃ s', s.put id = some s' ∧ s'.Consistent fun _ => 0 := by
  refine Consistent.drop ⟨inv.toLinked.recount rfl rfl, counted_update inv.counted ⟨fun live => ?_,
    fun idle => ?_⟩ fun x k => dropping_of_ne k⟩
  · obtain ⟨n, rest⟩ := (inv.counted id).held live
    refine ⟨?_, rest⟩
    rw [dropping, update_self]
    dsimp only
    omega
  · have := ((inv.counted id).free idle).2.1
    omega

theorem attach {role : Role} {task : Nat} (attached : s.attach m id role task = some s') : s'.Consistent fun _ => 0 := by
  dsimp only [Registry.attach] at attached
  split at attached
  · cases attached
  rename_i fine
  push Not at fine
  obtain ⟨free, _⟩ := fine
  obtain ⟨next, got, rfl⟩ := map_eq_some_iff.mp attached
  dsimp only [Registry.get] at got
  split at got
  · cases got
  rename_i able
  push Not at able
  obtain ⟨live, act, _⟩ := able
  have live : (s.identities id).registered = true := by simpa using live
  have next := some.inj got
  subst next
  simp only [setIdentity, update_self, update_idem]
  obtain ⟨n, _⟩ := (inv.counted id).held live
  refine ⟨⟨inv.joined.join free task rfl, inv.chained.congr rfl, inv.numbers.congr Iff.rfl rfl, inv.dated.congr rfl rfl fun _ => Iff.rfl⟩,
    counted_update inv.counted ⟨fun _ => ⟨?_, by simp, act⟩, fun idle => ?_⟩ fun _ _ => rfl⟩
  · have more := memberCount_update (s.identities id).members role (m :: (s.identities id).members role)
    rw [length_cons] at more
    dsimp only
    omega
  · exact absurd (live.symm.trans idle) (by simp)

theorem detach (held : (s.members m).identity ≠ none) : ∃ s', s.detach m = some s' ∧ s'.Consistent fun _ => 0 := by
  obtain ⟨id, held⟩ := ne_none_iff_exists'.mp held
  have mem := (inv.joined.mem id (s.members m).role m).mpr ⟨held, rfl⟩
  have live : (s.identities id).registered = true := by
    cases live : (s.identities id).registered with
    | true => rfl
    | false =>
      rw [unused_iff.mp ((inv.counted id).free live).2.2.1] at mem
      cases mem
  obtain ⟨n, some, act⟩ := (inv.counted id).held live
  unfold Registry.detach
  rw [held]
  dsimp only
  generalize ms : update (s.identities id).members (s.members m).role (((s.identities id).members (s.members m).role).erase m) = rest
  have fewer : memberCount rest + 1 = memberCount (s.identities id).members := by
    have moved := memberCount_update (s.identities id).members (s.members m).role (((s.identities id).members (s.members m).role).erase m)
    have len := length_pos_of_mem mem
    rw [ms, length_erase_of_mem mem] at moved
    omega
  have link : Linked { s.setIdentity id { s.identities id with members := rest } with
      members := update s.members m { s.members m with identity := none, task := 0 } } :=
    ⟨inv.joined.leave held ms.symm, inv.chained.congr rfl, inv.numbers.congr Iff.rfl rfl, inv.dated.congr rfl rfl fun _ => Iff.rfl⟩
  have recounted : ∀ pub, pub ≠ Published.retired → (Identity.mk (s.identities id).number
      (s.identities id).references (s.identities id).generation pub (s.identities id).registered rest
      (s.identities id).handles).Counted (dropping id id) := fun pub not => by
    rw [dropping, update_self]
    exact ⟨fun _ => ⟨by dsimp only; omega, some, not⟩, fun idle => absurd (live.symm.trans idle) (by simp)⟩
  have others : ∀ x, x ≠ id → dropping id x = 0 := fun x k => dropping_of_ne k
  split
  next last =>
    obtain ⟨_, given, link, ids⟩ := link.detachNumber id (by
      simp only [setIdentity, update_self]
      exact ⟨live, .inr last.1⟩)
    simp only [setIdentity, update_self, update_idem] at ids
    rw [given]
    refine Consistent.drop ⟨link, ?_⟩
    rw [ids]
    exact counted_update inv.counted (recounted .detached (by simp)) others
  · exact Consistent.drop ⟨link, counted_update inv.counted (recounted _ act) others⟩

theorem transfer (transferred : s.transfer old new task = some s') : s'.Consistent fun _ => 0 := by
  unfold Registry.transfer at transferred
  cases held : (s.members old).identity with
  | none =>
    rw [held] at transferred
    cases transferred
  | some id =>
    rw [held] at transferred
    dsimp only at transferred
    split at transferred
    · cases transferred
    rename_i free
    push Not at free
    rw [← some.inj transferred]
    refine ⟨⟨inv.joined.replace task held free.1 rfl, inv.chained.congr rfl,
      inv.numbers.congr Iff.rfl rfl, inv.dated.congr rfl rfl fun _ => Iff.rfl⟩,
      counted_update inv.counted ⟨fun live => ?_, fun idle => ?_⟩ fun _ _ => rfl⟩
    · obtain ⟨n, rest⟩ := (inv.counted id).held live
      have eq := memberCount_update (s.identities id).members (s.members old).role
        (((s.identities id).members (s.members old).role).map fun x => if x = old then new else x)
      rw [length_map] at eq
      exact ⟨by dsimp only; omega, rest⟩
    obtain ⟨refs, handles, empty, rest⟩ := (inv.counted id).free idle
    refine ⟨refs, handles, unused_iff.mpr fun role => ?_, rest⟩
    dsimp only
    rw [update_apply]
    split
    · rw [unused_iff.mp empty, map_nil]
    · exact unused_iff.mp empty role

theorem takeRetired : ∃ s', s.takeRetired = some s' ∧ s'.Consistent fun _ => 0 := by
  unfold Registry.takeRetired
  cases retired : s.retired with
  | nil => exact ⟨s, rfl, inv⟩
  | cons id rest =>
    have chained := inv.chained
    rw [retired] at chained
    have was := (chained.retired id).mp (.head _)
    have idle : (s.identities id).registered = false := by
      cases live : (s.identities id).registered with
      | false => rfl
      | true => exact absurd was ((inv.counted id).held live).2.2
    dsimp only
    rw [if_neg (by simp [was])]
    refine ⟨_, rfl, ⟨inv.joined.congr rfl, chained.take rfl, inv.numbers.congr (by simp [Identity.Numbered, idle]) rfl,
      inv.dated.congr rfl rfl fun live => absurd (live.symm.trans idle) (by simp)⟩,
      counted_update inv.counted ⟨fun live => absurd (live.symm.trans idle) (by simp), fun _ => ?_⟩ fun _ _ => rfl⟩
    obtain ⟨refs, handles, empty, none, _⟩ := (inv.counted id).free idle
    exact ⟨refs, handles, empty, none, .inl rfl⟩

theorem step {step : Step} (matched : s.Matched step) (ran : s.step step = some s') : s'.Consistent fun _ => 0 := by
  cases step with
  | reserve id =>
    cases ran
    exact inv.reserve id
  | publishReserved id =>
    obtain ⟨st, next, out, kept⟩ := inv.publishReserved id
    rw [Registry.step, out] at ran
    cases ran
    exact kept
  | publish id =>
    obtain ⟨_, next, out, kept⟩ := inv.publish id
    rw [Registry.step, out] at ran
    cases ran
    exact kept
  | get id => exact inv.get ran
  | put id =>
    obtain ⟨next, out, kept⟩ := inv.put matched
    rw [Registry.step, out] at ran
    cases ran
    exact kept
  | attach m id role task => exact inv.attach ran
  | detach m =>
    have held : (s.members m).identity ≠ none := fun none => by
      rw [Registry.step, Registry.detach, none] at ran
      cases ran
    obtain ⟨next, out, kept⟩ := inv.detach held
    rw [Registry.step, out] at ran
    cases ran
    exact kept
  | transfer old new task => exact inv.transfer ran
  | takeRetired =>
    obtain ⟨_, out, kept⟩ := inv.takeRetired
    rw [Registry.step, out] at ran
    cases ran
    exact kept

end Consistent
end

theorem Reachable.consistent (bounds : 0 < lim ∧ lim ≤ int32Max) (reached : Reachable lim s) : s.Consistent fun _ => 0 := by
  induction reached with
  | initial => exact consistent_initial bounds
  | step _ matched ran kept => exact kept.step matched ran

theorem Consistent.no_trap (inv : s.Consistent fun _ => 0) {step : Step} (disciplined : s.Disciplined step) : (s.step step).isSome := by
  have able : ∀ id, (s.identities id).registered = true → (s.identities id).references < uint32Max →
      ∃ s', s.get id = some s' := fun id live room => by
    obtain ⟨_, some, act⟩ := (inv.counted id).held live
    exact ⟨_, if_neg (by simp [live, act, some, ne_of_lt room])⟩
  cases step with
  | reserve id => rfl
  | publishReserved id =>
    obtain ⟨_, _, out, _⟩ := inv.publishReserved id
    rw [Registry.step, out]
    rfl
  | publish id =>
    obtain ⟨_, _, out, _⟩ := inv.publish id
    rw [Registry.step, out]
    rfl
  | get id =>
    obtain ⟨_, out⟩ := able id disciplined.1 disciplined.2
    rw [Registry.step, out]
    rfl
  | put id =>
    obtain ⟨_, out, _⟩ := inv.put disciplined
    rw [Registry.step, out]
    rfl
  | attach m id role task =>
    obtain ⟨free, some, live, st, room⟩ := disciplined
    obtain ⟨_, out⟩ := able id live room
    rw [Registry.step, Registry.attach, if_neg (by rcases st with eq | eq <;> simp [free, some, eq]), out]
    rfl
  | detach m =>
    obtain ⟨_, out, _⟩ := inv.detach disciplined
    rw [Registry.step, out]
    rfl
  | transfer old new task =>
    obtain ⟨held, free, some⟩ := disciplined
    obtain ⟨_, held⟩ := ne_none_iff_exists'.mp held
    rw [Registry.step, Registry.transfer, held]
    dsimp only
    rw [if_neg (by simp [free, some])]
    rfl
  | takeRetired =>
    obtain ⟨_, out, _⟩ := inv.takeRetired
    rw [Registry.step, out]
    rfl

end Registry
end BoarOS.Pid
