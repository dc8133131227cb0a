import BoarOS.Ipc.Model

namespace BoarOS.Ipc
open Data Function List

/-! # Integrity of the two indexes -/

def Table.Live (table : Table) (address : Nat) (object : Object) : Prop :=
  table.objects address = some object ∧ object.removed = false

def Table.nsemsOf (table : Table) (node : KeyNode) : Nat := ((table.objects node.owner).map Object.nsems).getD 0

structure Table.Consistent (table : Table) (limit : Nat) : Prop where
  slotsUnique : table.slots.Unique
  keysUnique : table.keys.Unique
  inSlots : ∀ key address, (⟨key, address⟩ : KeyNode) ∈ table.slots.flatten ↔ ∃ object, table.Live address object ∧ object.slot = key
  inKeys : ∀ key address, (⟨key, address⟩ : KeyNode) ∈ table.keys.flatten ↔
    ∃ object, table.Live address object ∧ object.key ≠ kernelIPCPRIVATE ∧ object.key.toNat = key
  counted : table.count = table.slots.flatten.length
  weighed : table.members = (table.slots.flatten.map table.nsemsOf).sum
  cursor : table.nextSlot < limit
  placed : ∀ address object, table.objects address = some object → object.slot < limit
  named : ∀ address object, table.objects address = some object → object.id = idOf object.seq object.slot ∧
    object.seq = UInt16.ofNat object.born
  sequenced : ∀ slot, table.sequence slot = UInt16.ofNat (table.removals slot)
  current : ∀ address object, table.Live address object → table.removals object.slot = object.born
  past : ∀ address object, table.objects address = some object → object.removed = true → object.born < table.removals object.slot

variable {table s' : Table} {lim addr nsems : Nat} {key : UInt32}

theorem idOf_eq (seq : UInt16) (lt : slot < 32768) : idOf seq slot = seq.toNat * 32768 + slot := by
  have bound := seq.toNat_lt
  have whole : seq.toNat <<< 15 ||| slot = seq.toNat * 32768 + slot := by
    rw [← Nat.shiftLeft_add_eq_or_of_lt (by exact lt), Nat.shiftLeft_eq]
  rw [idOf, BitVec.toInt_eq_toNat_of_lt]
  · rw [BitVec.toNat_ofNat]
    omega
  · rw [BitVec.toNat_ofNat]
    omega

theorem findSlot_reaches (steps : Nat) (enough : steps < rounds) (pos : slot < lim) (free : slots.find ((slot + steps) % lim) = none) :
    ∃ got, findSlot slots lim rounds slot = some got ∧ got < lim ∧ slots.find got = none := by
  induction rounds generalizing slot steps with
  | zero => omega
  | succ rounds ih =>
    rw [findSlot]
    cases taken : slots.find slot with
    | none => exact ⟨slot, rfl, pos, taken⟩
    | some node =>
      have move : steps ≠ 0 := by
        rintro rfl
        rw [add_zero, Nat.mod_eq_of_lt pos, taken] at free
        cases free
      obtain ⟨fewer, rfl⟩ := Nat.exists_eq_succ_of_ne_zero move
      refine ih fewer (by omega) (Nat.mod_lt _ (by omega)) ?_
      rw [← free]
      congr 1
      rw [Nat.add_mod, Nat.mod_mod, ← Nat.add_mod]
      congr 1
      omega

section
variable (inv : table.Consistent lim)
include inv

namespace Table.Consistent

theorem findSlot (room : table.count < lim) : ∃ slot, Ipc.findSlot table.slots lim lim table.nextSlot = some slot ∧ slot < lim ∧
      table.slots.find slot = none := by
  have vacant : ∃ slot < lim, table.slots.find slot = none := by
    by_contra full
    push Not at full
    have mem : ∀ slot ∈ List.range lim, slot ∈ table.slots.flatten.map KeyNode.key := by
      intro slot lt
      obtain ⟨node, got⟩ := Option.ne_none_iff_exists'.mp (full slot (mem_range.mp lt))
      obtain ⟨member, eq⟩ := inv.slotsUnique.find_iff.mp got
      exact mem_map.mpr ⟨node, member, eq⟩
    have len := (nodup_range.subperm mem).length_le
    rw [length_range, length_map, ← inv.counted] at len
    omega
  obtain ⟨slot, lt, free⟩ := vacant
  have cur := inv.cursor
  refine findSlot_reaches ((slot + lim - table.nextSlot) % lim) (Nat.mod_lt _ (by omega)) cur ?_
  have reach : (table.nextSlot + (slot + lim - table.nextSlot) % lim) % lim = slot := by
    rw [Nat.add_mod_mod, show table.nextSlot + (slot + lim - table.nextSlot) = slot + lim by omega, Nat.add_mod_right, Nat.mod_eq_of_lt lt]
  rw [reach]
  exact free

theorem slot_inj (liveFirst : table.Live first a) (liveSecond : table.Live snd b) (eq : a.slot = b.slot) : first = snd := by
  have inFirst := (inv.inSlots a.slot first).mpr ⟨a, liveFirst, rfl⟩
  have inSecond := (inv.inSlots b.slot snd).mpr ⟨b, liveSecond, rfl⟩
  exact congrArg KeyNode.owner (inv.slotsUnique.key_inj inFirst inSecond eq)

theorem key_inj (liveFirst : table.Live first a) (liveSecond : table.Live snd b)
    (keyed : a.key ≠ kernelIPCPRIVATE) (eq : a.key = b.key) : first = snd := by
  have inFirst := (inv.inKeys a.key.toNat first).mpr ⟨a, liveFirst, keyed, rfl⟩
  have inSecond := (inv.inKeys b.key.toNat snd).mpr ⟨b, liveSecond, eq ▸ keyed, rfl⟩
  exact congrArg KeyNode.owner (inv.keysUnique.key_inj inFirst inSecond (by rw [eq]))

theorem place (lt : slot < lim) (free : table.slots.find slot = none) (new : table.objects addr = none)
    (unkeyed : table.findKey key = none) : (table.place lim addr slot key nsems).Consistent lim := by
  have unused : ∀ node ∈ table.slots.flatten, node.key ≠ slot := inv.slotsUnique.find_none_iff.mp free
  obtain ⟨slotsUnique, slotsPerm⟩ := @KeyIndex.Unique.insertNode table.slots ⟨slot, addr⟩ inv.slotsUnique unused
  have keyed : key ≠ kernelIPCPRIVATE → ∀ node ∈ table.keys.flatten, node.key ≠ key.toNat := by
    intro public_
    rw [Table.findKey, if_pos public_] at unkeyed
    exact inv.keysUnique.find_none_iff.mp unkeyed
  have kept : ∀ k obj, (table.place lim addr slot key nsems).objects k = some obj ↔
      table.objects k = some obj ∨ k = addr ∧ obj = table.candidate slot key nsems := by
    intro k obj
    rw [Table.place]
    by_cases eq : k = addr
    · subst eq
      rw [new]
      simp [eq_comm]
    · simp [eq]
  have live : ∀ k obj, (table.place lim addr slot key nsems).Live k obj ↔
      table.Live k obj ∨ k = addr ∧ obj = table.candidate slot key nsems := by
    intro k obj
    rw [Table.Live, kept, or_and_right]
    refine or_congr_right ⟨And.left, fun cand => ⟨cand, ?_⟩⟩
    rw [cand.2]
    rfl
  refine ⟨slotsUnique, ?_, fun slotKey k => ?_, fun keyKey k => ?_, ?_, ?_, Nat.mod_lt _ (by omega),
    fun k obj known => ?_, fun k obj known => ?_, inv.sequenced, fun k obj alive => ?_,
    fun k obj known gone => ?_⟩
  · rw [Table.place]
    split
    next public_ =>
      exact (inv.keysUnique.insertNode (keyed public_)).1
    · exact inv.keysUnique
  · simp only [live]
    rw [Table.place, slotsPerm.mem_iff, mem_cons, inv.inSlots]
    constructor
    · rintro (here | ⟨obj, old, at_⟩)
      · cases here
        exact ⟨_, .inr ⟨rfl, rfl⟩, rfl⟩
      · exact ⟨obj, .inl old, at_⟩
    · rintro ⟨obj, old | ⟨rfl, rfl⟩, at_⟩
      · exact .inr ⟨obj, old, at_⟩
      · exact .inl (by rw [← at_]; rfl)
  · simp only [live]
    rw [Table.place]
    by_cases public_ : key ≠ kernelIPCPRIVATE
    · rw [if_pos public_, (inv.keysUnique.insertNode (keyed public_)).2.mem_iff, mem_cons, inv.inKeys]
      constructor
      · rintro (here | ⟨obj, old, rest⟩)
        · cases here
          exact ⟨_, .inr ⟨rfl, rfl⟩, public_, rfl⟩
        · exact ⟨obj, .inl old, rest⟩
      · rintro ⟨obj, old | ⟨rfl, rfl⟩, shown, at_⟩
        · exact .inr ⟨obj, old, shown, at_⟩
        · exact .inl (by rw [← at_]; rfl)
    · rw [if_neg public_, inv.inKeys]
      constructor
      · rintro ⟨obj, old, rest⟩
        exact ⟨obj, .inl old, rest⟩
      rintro ⟨obj, old | ⟨rfl, rfl⟩, shown, at_⟩
      · exact ⟨obj, old, shown, at_⟩
      · exact absurd shown public_
  · rw [Table.place, slotsPerm.length_eq, length_cons, inv.counted]
  · have weights : ∀ node ∈ table.slots.flatten, (table.place lim addr slot key nsems).nsemsOf node = table.nsemsOf node := by
      intro node mem
      obtain ⟨obj, old, _⟩ := (inv.inSlots node.key node.owner).mp mem
      rw [Table.nsemsOf, Table.nsemsOf, (kept node.owner obj).mpr (.inl old.1), old.1]
    have own : (table.place lim addr slot key nsems).nsemsOf ⟨slot, addr⟩ = nsems := by
      rw [Table.nsemsOf, (kept addr _).mpr (.inr ⟨rfl, rfl⟩)]
      rfl
    have perm : (table.place lim addr slot key nsems).slots.flatten.Perm _ := slotsPerm
    rw [(perm.map _).sum_eq, map_cons, sum_cons, map_congr_left weights, ← inv.weighed, own, add_comm]
    rfl
  · rcases (kept k obj).mp known with old | ⟨_, rfl⟩
    · exact inv.placed k obj old
    · exact lt
  · rcases (kept k obj).mp known with old | ⟨_, rfl⟩
    · exact inv.named k obj old
    · exact ⟨rfl, inv.sequenced slot⟩
  · rcases (live k obj).mp alive with old | ⟨_, rfl⟩
    · exact inv.current k obj old
    · rfl
  · rcases (kept k obj).mp known with old | ⟨_, rfl⟩
    · exact inv.past k obj old gone
    · cases gone

theorem publish (room : table.count < lim) (new : table.objects addr = none) (unkeyed : table.findKey key = none) :
    ∃ id s', table.publish lim addr key nsems = some (id, s') ∧ s'.Consistent lim := by
  obtain ⟨_, got, lt, free⟩ := inv.findSlot room
  exact ⟨_, _, by rw [Table.publish, got]; rfl, inv.place lt free new unkeyed⟩

theorem withdraw {obj : Object} (alive : table.Live addr obj) {slots keys : KeyIndex} (slotsUnique : slots.Unique)
    (keysUnique : keys.Unique) (slotsPerm : table.slots.flatten.Perm (⟨obj.slot, addr⟩ :: slots.flatten))
    (slotsMem : ∀ node, node ∈ slots.flatten ↔ node ∈ table.slots.flatten ∧ node ≠ ⟨obj.slot, addr⟩)
    (keysMem : ∀ node, node ∈ keys.flatten ↔ node ∈ table.keys.flatten ∧ node.owner ≠ addr) :
    (table.withdraw addr obj slots keys).Consistent lim := by
  have kept : ∀ k old, (table.withdraw addr obj slots keys).objects k = some old ↔
      k ≠ addr ∧ table.objects k = some old ∨ k = addr ∧ old = { obj with removed := true } := by
    intro k old
    rw [Table.withdraw]
    by_cases eq : k = addr
    · subst eq
      simp [eq_comm]
    · simp [eq]
  have live : ∀ k old, (table.withdraw addr obj slots keys).Live k old ↔ k ≠ addr ∧ table.Live k old := by
    intro k old
    rw [Table.Live, kept]
    constructor
    · rintro ⟨⟨ne, known⟩ | ⟨_, rfl⟩, has⟩
      · exact ⟨ne, known, has⟩
      · cases has
    · rintro ⟨ne, known, has⟩
      exact ⟨.inl ⟨ne, known⟩, has⟩
  have apart : ∀ k old, k ≠ addr → table.Live k old → old.slot ≠ obj.slot :=
    fun k old ne otherLive eq => ne (inv.slot_inj otherLive alive eq)
  have weights : ∀ node, (table.withdraw addr obj slots keys).nsemsOf node = table.nsemsOf node := by
    intro node
    unfold Table.nsemsOf
    rw [Table.withdraw]
    dsimp only
    by_cases eq : node.owner = addr
    · rw [eq, update_self, alive.1]
      rfl
    · rw [update_of_ne eq]
  refine ⟨slotsUnique, keysUnique, fun slotKey k => ?_, fun keyKey k => ?_, ?_, ?_, inv.cursor,
    fun k old known => ?_, fun k old known => ?_, fun slot => ?_, fun k old otherLive => ?_,
    fun k old known gone => ?_⟩
  · simp only [live]
    rw [Table.withdraw, slotsMem, inv.inSlots]
    constructor
    · rintro ⟨⟨old, oldLive, at_⟩, ne⟩
      refine ⟨old, ⟨?_, oldLive⟩, at_⟩
      rintro rfl
      have eq : old = obj := Option.some.inj (oldLive.1.symm.trans alive.1)
      exact ne (by rw [← at_, eq])
    · rintro ⟨old, ⟨ne, oldLive⟩, at_⟩
      refine ⟨⟨old, oldLive, at_⟩, fun eq => ne ?_⟩
      exact congrArg KeyNode.owner eq
  · simp only [live]
    rw [Table.withdraw, keysMem, inv.inKeys]
    constructor
    · rintro ⟨⟨old, oldLive, rest⟩, ne⟩
      exact ⟨old, ⟨ne, oldLive⟩, rest⟩
    · rintro ⟨old, ⟨ne, oldLive⟩, rest⟩
      exact ⟨⟨old, oldLive, rest⟩, ne⟩
  · have len := slotsPerm.length_eq
    rw [length_cons, ← inv.counted] at len
    rw [Table.withdraw]
    dsimp only
    omega
  · have sum := (slotsPerm.map table.nsemsOf).sum_eq
    rw [map_cons, sum_cons, ← inv.weighed] at sum
    have own : table.nsemsOf ⟨obj.slot, addr⟩ = obj.nsems := by
      rw [Table.nsemsOf, alive.1]
      rfl
    rw [funext weights, Table.withdraw]
    dsimp only
    omega
  · rcases (kept k old).mp known with ⟨_, pre⟩ | ⟨_, rfl⟩
    · exact inv.placed k old pre
    · exact inv.placed addr obj alive.1
  · rcases (kept k old).mp known with ⟨_, pre⟩ | ⟨_, rfl⟩
    · exact inv.named k old pre
    · exact inv.named addr obj alive.1
  · rw [Table.withdraw]
    dsimp only
    by_cases eq : slot = obj.slot
    · subst eq
      rw [update_self, update_self, inv.sequenced, UInt16.ofNat_add]
      rfl
    · rw [update_of_ne eq, update_of_ne eq, inv.sequenced]
  · obtain ⟨ne, oldLive⟩ := (live k old).mp otherLive
    rw [Table.withdraw]
    dsimp only
    rw [update_of_ne (apart k old ne oldLive)]
    exact inv.current k old oldLive
  · rw [Table.withdraw]
    dsimp only
    rcases (kept k old).mp known with ⟨_, pre⟩ | ⟨_, rfl⟩
    · have earlier := inv.past k old pre gone
      by_cases eq : old.slot = obj.slot
      · rw [eq, update_self]
        rw [eq] at earlier
        omega
      · rw [update_of_ne eq]
        exact earlier
    have now := inv.current addr obj alive
    rw [update_self]
    dsimp only
    omega

theorem remove {obj : Object} (known : table.objects addr = some obj) (owner : Bool) :
    ∃ res s', table.remove addr owner = some (res, s') ∧ s'.Consistent lim := by
  rw [Table.remove, known]
  dsimp only
  split
  · exact ⟨_, _, rfl, inv⟩
  rename_i has
  split
  · exact ⟨_, _, rfl, inv⟩
  have alive : table.Live addr obj := ⟨known, by simpa using has⟩
  have inSlots := (inv.inSlots obj.slot addr).mpr ⟨obj, alive, rfl⟩
  obtain ⟨_, slotsDone, slotsUnique, slotsPerm, slotsMem⟩ := inv.slotsUnique.removeNode inSlots
  have mine : ∀ node ∈ table.keys.flatten, node.owner = addr → obj.key ≠ kernelIPCPRIVATE ∧ node = ⟨obj.key.toNat, addr⟩ := by
    intro node mem eq
    obtain ⟨old, oldLive, shown, at_⟩ := (inv.inKeys node.key node.owner).mp mem
    rw [eq] at oldLive
    have equal : old = obj := Option.some.inj (oldLive.1.symm.trans known)
    rw [equal] at shown at_
    exact ⟨shown, by rw [at_, ← eq]⟩
  have keysCase : ∃ keys, (if obj.key ≠ kernelIPCPRIVATE then table.keys.removeNode ⟨obj.key.toNat, addr⟩
      else some table.keys) = some keys ∧ keys.Unique ∧
      ∀ node, node ∈ keys.flatten ↔ node ∈ table.keys.flatten ∧ node.owner ≠ addr := by
    by_cases public_ : obj.key ≠ kernelIPCPRIVATE
    · have inKeys := (inv.inKeys obj.key.toNat addr).mpr ⟨obj, alive, public_, rfl⟩
      obtain ⟨keys, done, unique, _, ms⟩ := inv.keysUnique.removeNode inKeys
      refine ⟨keys, by rw [if_pos public_, done], unique, fun node => (ms node).trans ?_⟩
      refine and_congr_right fun mem => not_congr ⟨fun eq => by rw [eq], fun eq => (mine node mem eq).2⟩
    · refine ⟨table.keys, by rw [if_neg public_], inv.keysUnique, fun node => ⟨fun mem => ⟨mem, ?_⟩, And.left⟩⟩
      exact fun eq => public_ (mine node mem eq).1
  obtain ⟨_, keysDone, keysUnique, keysMem⟩ := keysCase
  rw [slotsDone, keysDone]
  exact ⟨_, _, rfl, inv.withdraw alive slotsUnique keysUnique slotsPerm slotsMem keysMem⟩

end Table.Consistent
end

theorem Table.Consistent.get {kind : Kind} (inv : table.Consistent kind.limit) {flags : UInt32} {cand : Option Nat}
    (new : ∀ addr, cand = some addr → table.objects addr = none) (le : table.count ≤ kind.limit) :
    ∃ answer s', kind.get table key nsems flags cand = some (answer, s') ∧ s'.Consistent kind.limit := by
  have publishes : ∀ addr nsems, cand = some addr → table.findKey key = none → table.count ≠ kind.limit →
      ∃ answer s', ((table.publish kind.limit addr key nsems).map fun done => (Answer.created done.1, done.2)) =
        some (answer, s') ∧ s'.Consistent kind.limit := by
    intro addr nsems chosen unkeyed room
    obtain ⟨_, s', done, keeps⟩ := inv.publish (by omega) (new addr chosen) unkeyed
    exact ⟨_, s', by rw [done]; rfl, keeps⟩
  cases kind with
  | sem =>
    unfold Kind.get kernelSemGet
    cases unkeyed : table.findKey key with
    | some node => exact ⟨_, _, rfl, inv⟩
    | none =>
      dsimp only
      split
      · exact ⟨_, _, rfl, inv⟩
      split
      · exact ⟨_, _, rfl, inv⟩
      split
      · exact ⟨_, _, rfl, inv⟩
      rename_i room
      cases cand with
      | none => exact ⟨_, _, rfl, inv⟩
      | some addr => exact publishes addr nsems rfl unkeyed fun full => room (.inl full)
  | msg =>
    unfold Kind.get kernelMsgGet
    cases unkeyed : table.findKey key with
    | some node => exact ⟨_, _, rfl, inv⟩
    | none =>
      dsimp only
      split
      · exact ⟨_, _, rfl, inv⟩
      split
      · exact ⟨_, _, rfl, inv⟩
      rename_i room
      cases cand with
      | none => exact ⟨_, _, rfl, inv⟩
      | some addr => exact publishes addr 0 rfl unkeyed room

theorem Table.Consistent.bounded (inv : table.Consistent lim) : table.count ≤ lim := by
  have nodup : (table.slots.flatten.map KeyNode.key).Nodup := pairwise_map.mpr (inv.slotsUnique.sorted.imp fun less => ne_of_lt less)
  have mem : ∀ key ∈ table.slots.flatten.map KeyNode.key, key ∈ List.range lim := by
    intro key member
    obtain ⟨node, nodeIn, rfl⟩ := mem_map.mp member
    obtain ⟨_, live, at_⟩ := (inv.inSlots node.key node.owner).mp nodeIn
    rw [← at_]
    exact mem_range.mpr (inv.placed _ _ live.1)
  have len := (nodup.subperm mem).length_le
  rw [length_map, length_range, ← inv.counted] at len
  exact len

theorem Table.Consistent.empty (pos : 0 < lim) : Table.empty.Consistent lim :=
  ⟨.nil, .nil, fun key addr => ⟨nofun, fun ⟨_, live, _⟩ => by cases live.1⟩,
    fun key addr => ⟨nofun, fun ⟨_, live, _⟩ => by cases live.1⟩, rfl, rfl, pos, nofun, nofun, fun _ => rfl,
    fun _ _ live => (by cases live.1), nofun⟩

theorem Reachable.consistent {kind : Kind} (run : Reachable kind table) : table.Consistent kind.limit := by
  induction run with
  | empty => exact .empty (by cases kind <;> decide)
  | get _ new _ got ih =>
    obtain ⟨_, s', done, keeps⟩ := ih.get new ih.bounded
    rw [done] at got
    cases got
    exact keeps
  | @remove table s' addr owner res _ removed ih =>
    cases old : table.objects addr with
    | none =>
      rw [Table.remove, old] at removed
      cases removed
    | some obj =>
      obtain ⟨_, _, done, keeps⟩ := ih.remove old owner
      rw [done] at removed
      cases removed
      exact keeps

theorem Kind.limit_small (kind : Kind) : kind.limit < 32768 := by
  cases kind <;> decide

theorem Table.Consistent.id_eq {kind : Kind} (inv : table.Consistent kind.limit) {obj : Object}
    (old : table.objects addr = some obj) : obj.id = obj.seq.toNat * 32768 + obj.slot ∧ obj.slot < 32768 := by
  have lt : obj.slot < 32768 := lt_trans (inv.placed addr obj old) kind.limit_small
  rw [(inv.named addr obj old).1]
  exact ⟨idOf_eq obj.seq lt, lt⟩

theorem Table.Consistent.lookup_iff {kind : Kind} (inv : table.Consistent kind.limit) (id : Int) :
    table.lookup id false = some addr ↔ ∃ obj, table.Live addr obj ∧ obj.id = id := by
  have masked : ∀ n : Nat, n &&& 32767 = n % 32768 := fun n => Nat.and_two_pow_sub_one_eq_mod n 15
  unfold Table.lookup
  constructor
  · intro got
    split at got
    · cases got
    split at got
    · cases got
    rename_i node located
    split at got
    next eq =>
      cases got
      obtain ⟨mem, _⟩ := inv.slotsUnique.find_iff.mp located
      obtain ⟨obj, live, _⟩ := (inv.inSlots node.key node.owner).mp mem
      refine ⟨obj, live, ?_⟩
      rw [live.1] at eq
      simpa using eq
    · cases got
  · rintro ⟨obj, live, rfl⟩
    obtain ⟨_, _⟩ := inv.id_eq live.1
    have located : table.slots.find (obj.id.toNat &&& 32767) = some ⟨obj.slot, addr⟩ := by
      refine inv.slotsUnique.find_iff.mpr ⟨(inv.inSlots _ _).mpr ⟨obj, live, rfl⟩, ?_⟩
      rw [masked]
      dsimp only
      omega
    rw [if_neg (by omega)]
    simp only [Bool.false_eq_true, if_false, located, live.1]
    simp

/-- Both indexes hold exactly the live objects, a freed identifier stays unused until its slot has seen 65536
removals, the search for a slot ends, and the counters are the totals. -/
theorem identifiers_unique {kind : Kind} (reachable : Reachable kind table) :
    (∀ address object, table.Live address object → object.id = object.seq.toNat * 32768 + object.slot ∧ 0 ≤ object.id) ∧
    (∀ a b x y, table.Live a x → table.Live b y → a ≠ b → x.slot ≠ y.slot ∧ x.id ≠ y.id ∧ (x.key ≠ kernelIPCPRIVATE → x.key ≠ y.key)) ∧
    (∀ key address, (⟨key, address⟩ : KeyNode) ∈ table.slots.flatten ↔ ∃ object, table.Live address object ∧ object.slot = key) ∧
    (∀ key address, (⟨key, address⟩ : KeyNode) ∈ table.keys.flatten ↔
      ∃ object, table.Live address object ∧ object.key ≠ kernelIPCPRIVATE ∧ object.key.toNat = key) ∧
    (∀ id address, table.lookup id false = some address ↔ ∃ object, table.Live address object ∧ object.id = id) ∧
    (∀ old x address y, table.objects old = some x → x.removed = true → table.lookup x.id false = some address →
      table.objects address = some y → x.born + 65536 ≤ y.born ∧ y.born = table.removals x.slot) ∧
    (table.count < kind.limit → ∃ slot, findSlot table.slots kind.limit kind.limit table.nextSlot = some slot ∧
      table.slots.find slot = none) ∧
    table.count = table.slots.flatten.length ∧ table.members = (table.slots.flatten.map table.nsemsOf).sum := by
  have inv := reachable.consistent
  refine ⟨fun address object live => ?_, fun a b x y liveA liveB ne => ⟨fun eq => ?_, fun eq => ?_,
    fun keyed eq => ?_⟩, inv.inSlots, inv.inKeys, fun id address => inv.lookup_iff id,
    fun old x address y knownOld gone got known => ?_, fun room => ?_, inv.counted, inv.weighed⟩
  · obtain ⟨parts, _⟩ := inv.id_eq live.1
    exact ⟨parts, by omega⟩
  · exact ne (inv.slot_inj liveA liveB eq)
  · obtain ⟨_, _⟩ := inv.id_eq liveA.1
    obtain ⟨_, _⟩ := inv.id_eq liveB.1
    exact ne (inv.slot_inj liveA liveB (by omega))
  · exact ne (inv.key_inj liveA liveB keyed eq)
  · obtain ⟨object, live, _⟩ := (inv.lookup_iff x.id).mp got
    have equal : object = y := Option.some.inj (live.1.symm.trans known)
    subst equal
    obtain ⟨_, _⟩ := inv.id_eq knownOld
    obtain ⟨_, _⟩ := inv.id_eq live.1
    have slot : object.slot = x.slot := by omega
    have seq : object.seq.toNat = x.seq.toNat := by omega
    have earlier := inv.past old x knownOld gone
    have now := inv.current address object live
    rw [(inv.named old x knownOld).2, (inv.named address object live.1).2, UInt16.toNat_ofNat', UInt16.toNat_ofNat'] at seq
    rw [slot] at now
    refine ⟨by omega, now.symm⟩
  · obtain ⟨slot, got, _, free⟩ := inv.findSlot room
    exact ⟨slot, got, free⟩

/-- A queue is created under a key, removed, and created again with the next sequence number. -/
theorem identifiers_unique_again : ∃ table : Table, Reachable .msg table ∧ table.count = 1 ∧ table.lookup 0 false = none ∧
      table.count = table.slots.flatten.length := by
  have first := @Reachable.get .msg _ _ 7 kernelIPCCREAT 0 (some 1) _ .empty (fun _ _ => rfl) (by decide) rfl
  have gone := @Reachable.remove .msg _ _ 1 true _ first rfl
  have again := @Reachable.get .msg _ _ 7 kernelIPCCREAT 0 (some 2) _ gone (fun addr chosen => by cases chosen; rfl) (by decide) rfl
  exact ⟨_, again, rfl, rfl, (identifiers_unique again).2.2.2.2.2.2.2.1⟩

end BoarOS.Ipc
