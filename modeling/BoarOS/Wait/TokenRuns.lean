import BoarOS.Data.UpdatedMap
import BoarOS.Wait.Token
import Mathlib.Algebra.BigOperators.Group.List.Basic

namespace BoarOS.Wait
open Data Function List State

/-! # Runs of the token protocol -/

/-- On the processor, with a token of the current generation that is not committed. -/
structure State.Holding (s : State) : Prop where
  token : s.token = s.word.generation
  phase : s.word.phase = .prepared ∨ s.word.phase = .notified
  onCpu : s.onCpu = true
  unpending : s.readyPending = false
  unready : s.ready = false
  balanced : s.readies = s.commits

/-- Where the owner is, what it has of the word, and whether it has been made ready. -/
def State.At (s : State) : Owner → Prop
  | .idle => s.word.phase = .finished ∧ s.onCpu = true ∧ s.readyPending = false ∧ s.ready = false ∧
      s.readies = s.commits ∧ s.lock ≠ some .owner
  | .running => s.Holding ∧ s.lock ≠ some .owner
  | .parkSelf reason | .parkSelfCas reason => s.Holding ∧ s.lock = some .owner ∧ reason ≤ kernelWaitSignalled
  | .parkRead | .parkCommit => s.Holding ∧ s.lock = some .owner
  | .switching => s.token = s.word.generation ∧ s.onCpu = true ∧ s.ready = false ∧ s.lock ≠ some .owner ∧
      s.readies + 1 = s.commits ∧
      (s.word.phase = .committed ∧ s.readyPending = false ∨ s.word.phase = .notified ∧ s.readyPending = true)
  | .offCpu => s.token = s.word.generation ∧ s.onCpu = false ∧ s.readyPending = false ∧ s.lock ≠ some .owner ∧
      (s.word.phase = .committed ∧ s.ready = false ∧ s.readies + 1 = s.commits ∨
        s.word.phase = .notified ∧ s.ready = true ∧ s.readies = s.commits)
  | .resumed => s.Holding ∧ s.word.phase = .notified ∧ s.lock ≠ some .owner

structure State.Consistent (s : State) : Prop where
  generation : s.word.generation ≤ s.waitGeneration
  reason : s.word.reason < 4
  plain : s.word.phase = .prepared ∨ s.word.phase = .committed → s.word.reason = kernelWaitWoken
  begun : s.word.phase ≠ .finished → s.word.generation ≠ 0
  once : (s.effects.map Prod.fst).Nodup
  older : ∀ effect ∈ s.effects, effect.1 ≤ s.word.generation
  fresh : s.word.phase = .prepared ∨ s.word.phase = .committed → ∀ reason, (s.word.generation, reason) ∉ s.effects
  taken : s.word.phase = .notified → (s.word.generation, s.word.reason) ∈ s.effects
  returned : ∀ result ∈ s.returns, result ∈ s.effects
  owner : s.At s.owner
  exchanging : ∀ n g r, s.notifiers n = .slowCas g r → s.lock = some (.notifier n) ∧ s.word.generation = g ∧
    (s.word.phase = .prepared ∨ s.word.phase = .notified) ∧ r ≤ kernelWaitSignalled
  holder : ∀ n, s.lock = some (.notifier n) → ∃ g r, s.notifiers n = .slowCas g r
  waiting : ∀ n g r, s.notifiers n = .slow g r → r ≤ kernelWaitSignalled
  borrowed : s.borrows = (s.nodes.map WaitNode.references).sum + s.pins
  finished : s.word.phase = .finished → s.nodes = [] ∧ s.borrows = 0

variable {s after s' : State} {gen reason why : Nat}

theorem Word.pack_expected (word : Word) (lt : word.reason < 4) (gen : Nat) : word.pack = (expected gen).pack ↔
      word.generation = gen ∧ word.phase = .prepared ∧ word.reason = kernelWaitWoken := by
  obtain ⟨_, ph, _⟩ := word
  simp only [Word.pack, expected, kernelWaitWoken] at *
  cases ph <;> simp only [WaitPhase.code, reduceCtorEq, false_and, and_false, true_and, iff_false] <;> omega

theorem State.At.frame {owner : Owner} (ok : s.At owner) (word : s'.word = s.word) (tok : s'.token = s.token)
    (lock : s'.lock = s.lock) (onCpu : s'.onCpu = s.onCpu) (readyPending : s'.readyPending = s.readyPending)
    (ready : s'.ready = s.ready) (commits : s'.commits = s.commits) (readies : s'.readies = s.readies) : s'.At owner := by
  have moved (held : s.Holding) : s'.Holding := by
    obtain ⟨_, _⟩ := held
    constructor <;> simp only [*]
  cases owner with
  | idle => simpa only [At, word, onCpu, readyPending, ready, readies, commits, lock] using ok
  | switching | offCpu => simpa only [At, word, tok, onCpu, readyPending, ready, readies, commits, lock] using ok
  | resumed => exact ⟨moved ok.1, by rw [word]; exact ok.2.1, by rw [lock]; exact ok.2.2⟩
  | _ => exact ⟨moved ok.1, by rw [lock]; exact ok.2⟩

theorem State.Consistent.effect (inv : s.Consistent)
    (waits : s.word.phase = .prepared ∨ s.word.phase = .committed) (le : why ≤ kernelWaitSignalled)
    (nodes : List WaitNode) (readyPending ready : Bool) (readies : Nat)
    (refs : (nodes.map WaitNode.references).sum = (s.nodes.map WaitNode.references).sum)
    (ok : At { s with
      word := ⟨s.word.generation, .notified, why⟩, effects := (s.word.generation, why) :: s.effects
      nodes := nodes, readyPending := readyPending, ready := ready, readies := readies } s.owner) :
    Consistent { s with
      word := ⟨s.word.generation, .notified, why⟩, effects := (s.word.generation, why) :: s.effects
      nodes := nodes, readyPending := readyPending, ready := ready, readies := readies } where
  generation := inv.generation
  reason := lt_of_le_of_lt le (by decide)
  plain := by rintro (wrong | wrong) <;> cases wrong
  begun _ := inv.begun (by rcases waits with waits | waits <;> rw [waits] <;> nofun)
  once := by
    refine nodup_cons.mpr ⟨fun inside => ?_, inv.once⟩
    obtain ⟨effect, known, at_⟩ := mem_map.mp inside
    cases effect
    cases at_
    exact inv.fresh waits _ known
  older effect inside := by
    rcases mem_cons.mp inside with rfl | old
    · exact le_rfl
    · exact inv.older effect old
  fresh := by rintro (wrong | wrong) <;> cases wrong
  taken _ := mem_cons_self
  returned res inside := .tail _ (inv.returned res inside)
  owner := ok
  exchanging n g r at_ := by
    obtain ⟨lock, own, _, lt⟩ := inv.exchanging n g r at_
    exact ⟨lock, own, .inr rfl, lt⟩
  holder := inv.holder
  waiting := inv.waiting
  borrowed := inv.borrowed.trans (by rw [← refs])
  finished := nofun

theorem State.Consistent.publish (inv : s.Consistent) (eq : s.word.generation = gen) (prep : s.word.phase = .prepared)
    (le : why ≤ kernelWaitSignalled) : (s.publish gen why).Consistent := by
  subst eq
  refine inv.effect (.inl prep) le s.nodes s.readyPending s.ready s.readies rfl ?_
  have ok := inv.owner
  have moved : s.Holding → (s.publish s.word.generation why).Holding := fun held =>
    ⟨held.token, .inr rfl, held.onCpu, held.unpending, held.unready, held.balanced⟩
  change (s.publish s.word.generation why).At s.owner
  cases place : s.owner with
  | idle =>
    rw [place, At, prep] at ok
    cases ok.1
  | switching | offCpu =>
    rw [place, At, prep] at ok
    simp at ok
  | resumed =>
    rw [place, At, prep] at ok
    cases ok.2.1
  | _ =>
    rw [place] at ok
    exact ⟨moved ok.1, ok.2⟩

theorem State.Consistent.committed_away (inv : s.Consistent) (done : s.word.phase = .committed) :
    s.owner = .switching ∧ s.onCpu = true ∨ s.owner = .offCpu ∧ s.onCpu = false := by
  have ok := inv.owner
  cases place : s.owner with
  | switching =>
    rw [place] at ok
    exact .inl ⟨rfl, ok.2.1⟩
  | offCpu =>
    rw [place] at ok
    exact .inr ⟨rfl, ok.2.1⟩
  | idle =>
    rw [place, At, done] at ok
    cases ok.1
  | _ =>
    rw [place] at ok
    have ph := ok.1.phase
    rw [done] at ph
    rcases ph with wrong | wrong <;> cases wrong

theorem State.notifyCommitted_onCpu (cpu : s.onCpu = true) : s.notifyCommitted gen why = { s with
      word := ⟨gen, .notified, why⟩, effects := (gen, why) :: s.effects
      nodes := s.nodes.map fun node => if node.byDefault then { node with registered := false } else node
      readyPending := true } := by
  dsimp only [notifyCommitted]
  rw [if_pos cpu]
  rfl

theorem State.notifyCommitted_away (cpu : s.onCpu = false) : s.notifyCommitted gen why = { s with
      word := ⟨gen, .notified, why⟩, effects := (gen, why) :: s.effects
      nodes := s.nodes.map fun node => if node.byDefault then { node with registered := false } else node
      ready := true, readies := s.readies + 1 } := by
  dsimp only [notifyCommitted]
  rw [if_neg (by simp [cpu])]
  rfl

section
variable (inv : s.Consistent)
include inv

namespace State.Consistent

theorem notifyCommitted (eq : s.word.generation = gen) (done : s.word.phase = .committed)
    (le : why ≤ kernelWaitSignalled) : (s.notifyCommitted gen why).Consistent := by
  subst eq
  have refs : ((s.nodes.map fun node => if node.byDefault then { node with registered := false } else node).map
      WaitNode.references).sum = (s.nodes.map WaitNode.references).sum := by
    rw [map_map]
    congr 1
    refine map_congr_left fun node _ => ?_
    rw [Function.comp_apply]
    split <;> rfl
  have ok := inv.owner
  rcases inv.committed_away done with ⟨pos, cpu⟩ | ⟨pos, cpu⟩
  · rw [notifyCommitted_onCpu cpu]
    refine inv.effect (.inr done) le _ true s.ready s.readies refs ?_
    rw [pos] at ok ⊢
    obtain ⟨tok, _, unready, lock, readies, _⟩ := ok
    exact ⟨tok, cpu, unready, lock, readies, .inr ⟨rfl, rfl⟩⟩
  rw [notifyCommitted_away cpu]
  refine inv.effect (.inr done) le _ s.readyPending true (s.readies + 1) refs ?_
  rw [pos] at ok ⊢
  obtain ⟨tok, _, unpending, lock, kind⟩ := ok
  rw [done] at kind
  have quiet := kind.resolve_right (by rintro ⟨wrong, _⟩; cases wrong)
  exact ⟨tok, cpu, unpending, lock, .inr ⟨rfl, rfl, quiet.2.2⟩⟩

/-- A locked notification ends, or has a word before it that only other notifiers can change. -/
theorem notifyRead (gen : Nat) (le : why ≤ kernelWaitSignalled) : match s.notifyRead gen why with
    | .done s' => s'.Consistent ∧ s'.lock = s.lock ∧ s'.notifiers = s.notifiers ∧ s'.owner = s.owner ∧ (s.word.phase = .committed ∨ s' = s)
    | .exchange s' => s' = s ∧ s.word.generation = gen ∧ s.word.phase = .prepared := by
  unfold State.notifyRead
  by_cases mismatch : s.tokenMatches gen = false
  · rw [if_pos mismatch]
    exact ⟨inv, rfl, rfl, rfl, .inr rfl⟩
  rw [if_neg mismatch]
  simp only [State.tokenMatches, Bool.and_eq_false_iff, beq_eq_false_iff_ne, decide_eq_false_iff_not, not_or, not_not, ne_eq] at mismatch
  have own : s.word.generation = gen := mismatch.1.2
  cases phase : s.word.phase with
  | finished | notified => exact ⟨inv, rfl, rfl, rfl, .inr rfl⟩
  | prepared => exact ⟨rfl, own, rfl⟩
  | committed =>
    refine ⟨inv.notifyCommitted own phase le, ?_, ?_, ?_, .inl rfl⟩ <;>
      · dsimp only [State.notifyCommitted]
        split <;> rfl

/-- The compare-exchange under the domain does not trap: a racing notifier leaves a notified word. -/
theorem notifyCas (own : s.word.generation = gen) (ph : s.word.phase = .prepared ∨ s.word.phase = .notified)
    (le : why ≤ kernelWaitSignalled) : ∃ s', s.notifyCas gen why = some s' ∧ s'.Consistent ∧ s'.lock = s.lock ∧
      s'.notifiers = s.notifiers ∧ s'.owner = s.owner := by
  unfold State.notifyCas
  by_cases hit : s.word.pack = (expected gen).pack
  · rw [if_pos hit]
    obtain ⟨_, prep, _⟩ := (s.word.pack_expected inv.reason gen).mp hit
    exact ⟨_, rfl, inv.publish own prep le, rfl, rfl, rfl⟩
  rw [if_neg hit]
  rcases ph with prep | notified
  · exact absurd ((s.word.pack_expected inv.reason gen).mpr ⟨own, prep, inv.plain (.inl prep)⟩) hit
  rw [if_neg (by simp [own, notified])]
  exact ⟨s, rfl, inv, rfl, rfl, rfl⟩

theorem relock (notifiers : Nat → Notifier) (lock : Option Holder) (free : s.lock ≠ some .owner) (ne : lock ≠ some .owner)
    (exchanging : ∀ n g r, notifiers n = .slowCas g r → lock = some (.notifier n) ∧ s.word.generation = g ∧
      (s.word.phase = .prepared ∨ s.word.phase = .notified) ∧ r ≤ kernelWaitSignalled)
    (holder : ∀ n, lock = some (.notifier n) → ∃ g r, notifiers n = .slowCas g r)
    (wait : ∀ n g r, notifiers n = .slow g r → r ≤ kernelWaitSignalled) : Consistent { s with notifiers := notifiers, lock := lock } := by
  refine { inv with owner := ?_, exchanging := exchanging, holder := holder, waiting := wait }
  have ok := inv.owner
  have moved (owner : Owner) (held : s.Holding) : Holding { s with owner := owner, notifiers := notifiers, lock := lock } := { held with }
  cases place : s.owner with
  | idle =>
    rw [place] at ok
    obtain ⟨ph, cpu, pend, ready, readies, _⟩ := ok
    exact ⟨ph, cpu, pend, ready, readies, ne⟩
  | running =>
    rw [place] at ok
    exact ⟨moved _ ok.1, ne⟩
  | resumed =>
    rw [place] at ok
    exact ⟨moved _ ok.1, ok.2.1, ne⟩
  | switching =>
    rw [place] at ok
    obtain ⟨tok, cpu, unready, _, rest⟩ := ok
    exact ⟨tok, cpu, unready, ne, rest⟩
  | offCpu =>
    rw [place] at ok
    obtain ⟨tok, cpu, unpending, _, rest⟩ := ok
    exact ⟨tok, cpu, unpending, ne, rest⟩
  | parkSelf | parkSelfCas =>
    rw [place] at ok
    exact absurd ok.2.1 free
  | _ =>
    rw [place] at ok
    exact absurd ok.2 free

theorem unraced (free : ∀ n, s.lock ≠ some (.notifier n)) (n g r : Nat) : s.notifiers n ≠ .slowCas g r :=
  fun at_ => free n (inv.exchanging n g r at_).1

theorem setNotifier (n : Nat) (notifier : Notifier) (apart : s.lock ≠ some (.notifier n)) (quiet : ∀ g r, notifier ≠ .slowCas g r)
    (le : ∀ g r, notifier = .slow g r → r ≤ kernelWaitSignalled) : (s.setNotifier n notifier).Consistent := by
  unfold State.setNotifier
  refine { inv with
    owner := inv.owner.frame rfl rfl rfl rfl rfl rfl rfl rfl
    exchanging := fun k g r at_ => ?_, holder := fun k held => ?_, waiting := fun k g r at_ => ?_ }
  · dsimp only at at_
    obtain ⟨rfl, now⟩ | ⟨_, at_⟩ := of_update_eq at_
    · exact absurd now (quiet g r)
    · exact inv.exchanging k g r at_
  · obtain ⟨g, r, at_⟩ := inv.holder k held
    have differ : k ≠ n := fun eq => apart (by rwa [← eq])
    exact ⟨g, r, (update_of_ne differ ..).trans at_⟩
  · dsimp only at at_
    obtain ⟨rfl, now⟩ | ⟨_, at_⟩ := of_update_eq at_
    · exact le g r now
    · exact inv.waiting k g r at_

theorem lockedNotify (free : s.lock = none) (n : Nat) (le : why ≤ kernelWaitSignalled) : (s.lockedNotify n gen why).Consistent := by
  have read := inv.notifyRead gen le
  unfold State.lockedNotify
  cases out : s.notifyRead gen why with
  | done s' =>
    rw [out] at read
    obtain ⟨kept, lock, _⟩ := read
    have open_ : s'.lock = none := lock.trans free
    exact kept.setNotifier n .idle (by simp [open_]) nofun nofun
  | exchange s' =>
    rw [out] at read
    obtain ⟨rfl, own, prep⟩ := read
    have unraced := inv.unraced (by simp [free])
    refine inv.relock (update s'.notifiers n (.slowCas gen why)) _ (by simp [free])
      nofun (fun k g r at_ => ?_) (fun k held => ?_) (fun k g r at_ => ?_)
    · obtain ⟨rfl, ⟨⟩⟩ | ⟨_, at_⟩ := of_update_eq at_
      · exact ⟨rfl, own, .inl prep, le⟩
      · exact absurd at_ (unraced k g r)
    · cases held
      exact ⟨gen, why, update_self ..⟩
    · obtain ⟨_, ⟨⟩⟩ | ⟨_, at_⟩ := of_update_eq at_
      exact inv.waiting k g r at_

theorem move (free : ∀ n, s.lock ≠ some (.notifier n)) (owner : Owner)
    (lock : Option Holder) (stillFree : ∀ n, lock ≠ some (.notifier n)) (onCpu readyPending ready : Bool)
    (readies : Nat)
    (ok : At { s with
      owner := owner, lock := lock, onCpu := onCpu, readyPending := readyPending, ready := ready, readies := readies } owner) :
    Consistent { s with owner := owner, lock := lock, onCpu := onCpu, readyPending := readyPending, ready := ready, readies := readies } :=
  { inv with
    owner := ok
    exchanging := fun n g r at_ => absurd at_ (inv.unraced free n g r)
    holder := fun n held => absurd held (stillFree n) }

theorem setNodes (live : s.word.phase ≠ .finished) (nodes : List WaitNode)
    (borrows pins : Nat) (balanced : borrows = (nodes.map WaitNode.references).sum + pins) :
    Consistent { s with nodes := nodes, borrows := borrows, pins := pins } := by
  exact { inv with
    owner := inv.owner.frame rfl rfl rfl rfl rfl rfl rfl rfl
    borrowed := balanced
    finished := fun wrong => absurd wrong live }

theorem result (own : s.token = s.word.generation)
    (notified : s.word.phase = .notified) : ∀ res ∈ (s.token, s.word.reason) :: s.returns, res ∈ s.effects := by
  intro res mem
  rcases mem_cons.mp mem with rfl | old
  · rw [own]
    exact inv.taken notified
  · exact inv.returned res old

theorem parkReturns (hold : s.Holding) (held : s.lock = some .owner) (notified : s.word.phase = .notified) : s.parkReturns.Consistent :=
  { inv with
    returned := inv.result hold.token notified
    owner := ⟨{ hold with }, nofun⟩
    exchanging := fun n g r at_ => absurd at_ (inv.unraced (by simp [held]) n g r)
    holder := nofun }

end State.Consistent
end

theorem State.dropNodes_sum (n : Nat) : ∀ nodes : List WaitNode,
    ((dropNodes n nodes).map WaitNode.references).sum = (nodes.map WaitNode.references).sum := by
  induction n with
  | zero => exact fun _ => rfl
  | succ n ih =>
    intro nodes
    cases nodes with
    | nil => rfl
    | cons node rest =>
      unfold dropNodes
      split
      · rfl
      next unborrowed =>
        rw [ih, map_cons, sum_cons, not_not.mp unborrowed, zero_add]

theorem sum_references_set (nodes : List WaitNode) (i : Nat) (node v : WaitNode) (at_ : nodes[i]? = some node) :
    ((nodes.set i v).map WaitNode.references).sum + node.references = (nodes.map WaitNode.references).sum + v.references := by
  induction nodes generalizing i with
  | nil => cases at_
  | cons head rest ih =>
    cases i with
    | zero =>
      cases at_
      simp only [set_cons_zero, map_cons, sum_cons]
      omega
    | succ i =>
      have tail := ih i at_
      simp only [set_cons_succ, map_cons, sum_cons]
      omega

def State.Safe : Option (Option State) → Prop
  | none => True
  | some none => False
  | some (some after) => after.Consistent

section
variable (inv : s.Consistent)
include inv

namespace State.Consistent

/-- A step of the owner at `o` that needs the domain to be free. -/
theorem at_free {o : Owner} {res : Option (Option State)} (next : s.At o → s.lock = none → Safe res) :
    Safe (if s.owner ≠ o ∨ s.lock ≠ none then none else res) := by
  split
  · trivial
  rename_i applies
  simp only [not_or, not_not] at applies
  obtain ⟨pos, free⟩ := applies
  exact next (pos ▸ inv.owner) free

theorem prepare (q : Bool) : Safe (s.step (.prepare q)) := by
  refine inv.at_free fun ok free => ?_
  obtain ⟨fin, cpu, unpending, unready, readies, _⟩ := ok
  obtain ⟨empty, unborrowed⟩ := inv.finished fin
  rw [if_neg (by simp [fin, empty, unborrowed])]
  split
  · exact inv
  have newer : ∀ effect ∈ s.effects, effect.1 < s.waitGeneration + 1 := fun effect old =>
    Nat.lt_succ_of_le (le_trans (inv.older effect old) inv.generation)
  have balanced := inv.borrowed
  rw [empty, unborrowed] at balanced
  exact {
    generation := le_rfl
    reason := show kernelWaitWoken < 4 by decide
    plain := fun _ => rfl
    begun := fun _ => Nat.succ_ne_zero _
    once := inv.once
    older := fun effect old => le_of_lt (newer effect old)
    fresh := fun _ why old => lt_irrefl _ (newer _ old)
    taken := nofun
    returned := inv.returned
    owner := ⟨⟨rfl, .inl rfl, cpu, unpending, unready, readies⟩, by simp [free]⟩
    exchanging := fun n g r at_ => absurd at_ (inv.unraced (by simp [free]) n g r)
    holder := fun n held => by rw [free] at held; cases held
    waiting := inv.waiting
    borrowed := by
      rw [unborrowed]
      cases q <;> simpa using balanced
    finished := nofun }

theorem park (signalled expired : Bool) : Safe (s.step (.park signalled expired)) := by
  refine inv.at_free fun ok free => ?_
  obtain ⟨hold, _⟩ := ok
  have moved (owner : Owner) (ok : At { s with owner := owner, lock := some .owner } owner) :
      Consistent { s with owner := owner, lock := some .owner } :=
    inv.move (by simp [free]) owner (some .owner) nofun _ _ _ _ ok
  have held (owner : Owner) : Holding { s with owner := owner, lock := some .owner } := { hold with }
  split
  · exact inv
  split
  · split
    · exact moved _ ⟨held _, rfl, by decide⟩
    · split
      · exact moved _ ⟨held _, rfl, by decide⟩
      · exact moved _ ⟨held _, rfl⟩
  · exact moved _ ⟨held _, rfl⟩

theorem parkSelf : Safe (s.step .parkSelf) := by
  dsimp only [step]
  split
  next why pos =>
    have ok := inv.owner
    rw [pos] at ok
    obtain ⟨hold, held, le⟩ := ok
    have read := inv.notifyRead s.token le
    have free : ∀ n, s.lock ≠ some (.notifier n) := by simp [held]
    cases out : s.notifyRead s.token why with
    | done s' =>
      rw [out] at read
      obtain ⟨_, _, _, _, committed | rfl⟩ := read
      · have ph := hold.phase
        rw [committed] at ph
        rcases ph with wrong | wrong <;> cases wrong
      · exact inv.move free .parkRead _ free _ _ _ _ ⟨{ hold with }, held⟩
    | exchange s' =>
      rw [out] at read
      obtain ⟨rfl, _⟩ := read
      exact inv.move free (.parkSelfCas why) _ free _ _ _ _ ⟨{ hold with }, held, le⟩
  · trivial

theorem parkSelfCas : Safe (s.step .parkSelfCas) := by
  dsimp only [step]
  split
  next why pos =>
    have ok := inv.owner
    rw [pos] at ok
    obtain ⟨hold, held, le⟩ := ok
    obtain ⟨s', exchanged, kept, _, _, still⟩ := inv.notifyCas hold.token.symm hold.phase le
    have mem := kept.owner
    rw [still, pos] at mem
    obtain ⟨hold, held, _⟩ := mem
    rw [exchanged]
    have free : ∀ n, s'.lock ≠ some (.notifier n) := by simp [held]
    exact kept.move free .parkRead _ free _ _ _ _ ⟨{ hold with }, held⟩
  · trivial

theorem parkRead : Safe (s.step .parkRead) := by
  dsimp only [step]
  split
  · trivial
  rename_i applies
  have ok := inv.owner
  rw [not_not.mp applies] at ok
  obtain ⟨hold, held⟩ := ok
  have free : ∀ n, s.lock ≠ some (.notifier n) := by simp [held]
  rcases hold.phase with prep | notified
  · rw [prep]
    exact inv.move free .parkCommit _ free _ _ _ _ ⟨{ hold with }, held⟩
  · rw [notified]
    exact inv.parkReturns hold held notified

/-- The owner commits unless a notifier came between its two accesses, which it then finds. -/
theorem parkCommit : Safe (s.step .parkCommit) := by
  dsimp only [step]
  split
  · trivial
  rename_i applies
  have ok := inv.owner
  rw [not_not.mp applies] at ok
  obtain ⟨hold, held⟩ := ok
  have free : ∀ n, s.lock ≠ some (.notifier n) := by simp [held]
  split
  next hit =>
    obtain ⟨_, prep, _⟩ := (s.word.pack_expected inv.reason s.token).mp hit
    have live : s.word.phase ≠ .finished := by simp [prep]
    have fresh := inv.fresh (.inl prep)
    rw [← hold.token] at fresh
    exact { inv with
      generation := by
        have bound := inv.generation
        rw [← hold.token] at bound
        exact bound
      reason := show kernelWaitWoken < 4 by decide
      plain := fun _ => rfl
      begun := fun _ => by
        have begun := inv.begun live
        rw [← hold.token] at begun
        exact begun
      older := fun effect old => by
        have bound := inv.older effect old
        rw [← hold.token] at bound
        exact bound
      fresh := fun _ => fresh
      taken := nofun
      owner := ⟨rfl, hold.onCpu, hold.unready, nofun, congrArg (· + 1) hold.balanced, .inl ⟨rfl, hold.unpending⟩⟩
      exchanging := fun n g r at_ => absurd at_ (inv.unraced free n g r)
      holder := nofun
      finished := nofun }
  next miss =>
    have notified : s.word.phase = .notified := hold.phase.resolve_left fun prep => miss
      ((s.word.pack_expected inv.reason s.token).mpr ⟨hold.token.symm, prep, inv.plain (.inl prep)⟩)
    rw [if_neg (by simp [notified, hold.token])]
    exact inv.parkReturns hold held notified

theorem switchFinish : Safe (s.step .switchFinish) := by
  dsimp only [step]
  refine inv.at_free fun ok free => ?_
  obtain ⟨tok, cpu, unready, _, readies, kind⟩ := ok
  have unheld : ∀ n, s.lock ≠ some (.notifier n) := by simp [free]
  rw [if_neg (by simp [cpu])]
  rcases kind with ⟨done, unpending⟩ | ⟨notified, pend⟩
  · rw [if_neg (by simp [unpending])]
    exact inv.move unheld .offCpu s.lock unheld false s.readyPending s.ready s.readies
      ⟨tok, rfl, unpending, by simp [free], .inl ⟨done, unready, readies⟩⟩
  rw [if_pos pend]
  exact inv.move unheld .offCpu s.lock unheld false false true (s.readies + 1)
    ⟨tok, rfl, rfl, by simp [free], .inr ⟨notified, rfl, readies⟩⟩

theorem dispatch : Safe (s.step .dispatch) := by
  dsimp only [step]
  split
  · trivial
  rename_i applies
  simp only [not_or, not_not, Bool.not_eq_false] at applies
  obtain ⟨pos, free, ready⟩ := applies
  have ok := inv.owner
  rw [pos, At, ready] at ok
  obtain ⟨tok, _, unpending, _, wrong | ⟨notified, _, readies⟩⟩ := ok
  · cases wrong.2.1
  have unheld : ∀ n, s.lock ≠ some (.notifier n) := by simp [free]
  exact inv.move unheld .resumed s.lock unheld true s.readyPending false s.readies
    ⟨⟨tok, .inr notified, rfl, unpending, rfl, readies⟩, notified, by simp [free]⟩

theorem parkResume : Safe (s.step .parkResume) := by
  dsimp only [step]
  split
  · trivial
  rename_i applies
  have ok := inv.owner
  rw [not_not.mp applies] at ok
  obtain ⟨held, notified, free⟩ := ok
  rw [if_neg (by simp [notified, held.onCpu])]
  exact { inv with
    returned := inv.result held.token notified
    owner := ⟨{ held with }, free⟩ }

theorem finish : Safe (s.step .finish) := by
  dsimp only [step]
  refine inv.at_free fun ok free => ?_
  obtain ⟨held, _⟩ := ok
  split
  · exact inv
  rw [if_neg (by rcases held.phase with ph | ph <;> rw [ph] <;> nofun)]
  have live : s.word.phase ≠ .finished := by rcases held.phase with ph | ph <;> rw [ph] <;> nofun
  have balanced := inv.borrowed
  rw [← dropNodes_sum 16] at balanced
  split
  next drained =>
    obtain ⟨empty, unborrowed⟩ := drained
    rw [empty] at balanced
    exact { inv with
      generation := by
        have bound := inv.generation
        rw [← held.token] at bound
        exact bound
      reason := show kernelWaitWoken < 4 by decide
      plain := fun _ => rfl
      begun := fun wrong => absurd rfl wrong
      older := fun effect old => by
        have bound := inv.older effect old
        rw [← held.token] at bound
        exact bound
      fresh := by rintro (wrong | wrong) <;> cases wrong
      taken := nofun
      owner := ⟨rfl, held.onCpu, held.unpending, held.unready, held.balanced, by simp [free]⟩
      exchanging := fun n g r at_ => absurd at_ (inv.unraced (by simp [free]) n g r)
      borrowed := balanced
      finished := fun _ => ⟨rfl, unborrowed⟩ }
  · exact inv.setNodes live _ s.borrows s.pins balanced

theorem notify (n : Nat) : Safe (s.step (.notify n gen why)) := by
  dsimp only [step]
  split
  · trivial
  rename_i ok
  simp only [not_or, not_not, not_lt] at ok
  obtain ⟨pos, le⟩ := ok
  have pend : (s.setNotifier n (.slow gen why)).Consistent := by
    refine inv.setNotifier n _ (fun held => ?_) nofun (fun g r eq => ?_)
    · obtain ⟨g, r, at_⟩ := inv.holder n held
      rw [pos] at at_
      cases at_
    · cases eq
      exact le
  split
  · split
    next hit =>
      obtain ⟨own, prep, _⟩ := (s.word.pack_expected inv.reason gen).mp hit
      exact inv.publish own prep le
    · split
      · exact inv
      · exact pend
  · exact pend

theorem notifyLocked (n : Nat) : Safe (s.step (.notifyLocked n gen why)) := by
  dsimp only [step]
  split
  · trivial
  rename_i ok
  simp only [not_or, not_not, not_lt] at ok
  exact inv.lockedNotify ok.2.1 n ok.2.2

theorem slow (n : Nat) : Safe (s.step (.slow n)) := by
  dsimp only [step]
  split
  next gen why pos =>
    split
    · trivial
    next free =>
      exact inv.lockedNotify (not_not.mp free) n (inv.waiting n gen why pos)
  · trivial

theorem slowCas (n : Nat) : Safe (s.step (.slowCas n)) := by
  dsimp only [step]
  split
  next gen why pos =>
    obtain ⟨held, own, ph, le⟩ := inv.exchanging n gen why pos
    obtain ⟨s', exchanged, kept, lock, _⟩ := inv.notifyCas own ph le
    rw [exchanged]
    have alone : ∀ k, k ≠ n → ∀ g r, s'.notifiers k ≠ .slowCas g r := by
      intro k apart g r at_
      have theirs := (kept.exchanging k g r at_).1
      rw [lock, held] at theirs
      cases theirs
      exact apart rfl
    refine kept.relock (update s'.notifiers n .idle) none (by simp [lock, held]) nofun (fun k g r at_ => ?_) nofun (fun k g r at_ => ?_)
    · obtain ⟨_, ⟨⟩⟩ | ⟨eq, at_⟩ := of_update_eq at_
      exact absurd at_ (alone k eq g r)
    obtain ⟨_, ⟨⟩⟩ | ⟨_, at_⟩ := of_update_eq at_
    exact kept.waiting k g r at_
  · trivial

theorem borrows (i : Nat) : Safe (s.step (.borrow i)) ∧ Safe (s.step (.put i)) := by
  have live (node : WaitNode) (at_ : s.nodes[i]? = some node) : s.word.phase ≠ .finished := by
    intro fin
    rw [(inv.finished fin).1] at at_
    cases at_
  have balanced := inv.borrowed
  constructor <;> unfold step <;> dsimp only <;> split
  next node at_ =>
    split
    · trivial
    have moved := sum_references_set s.nodes i node { node with references := node.references + 1 } at_
    exact inv.setNodes (live node at_) _ (s.borrows + 1) s.pins (by dsimp only at moved; omega)
  · trivial
  next node at_ =>
    split
    · trivial
    rename_i ok
    have moved := sum_references_set s.nodes i node { node with references := node.references - 1 } at_
    exact inv.setNodes (live node at_) _ (s.borrows - 1) s.pins (by dsimp only at moved; omega)
  · trivial

theorem pins : Safe (s.step .pin) ∧ Safe (s.step .unpin) := by
  have balanced := inv.borrowed
  constructor <;> unfold step <;> dsimp only <;> split
  · trivial
  next ok =>
    simp only [not_or] at ok
    exact inv.setNodes ok.2 s.nodes (s.borrows + 1) (s.pins + 1) (by omega)
  · trivial
  rename_i ok
  simp only [not_or] at ok
  refine inv.setNodes (fun fin => ?_) s.nodes (s.borrows - 1) (s.pins - 1) (by omega)
  obtain ⟨_, _⟩ := inv.finished fin
  omega

theorem bind (closed : Bool) : Safe (s.step (.bind closed)) := by
  dsimp only [step]
  split
  · trivial
  split
  · exact inv
  rename_i applies live
  simp only [not_or, not_not] at applies
  have ok := inv.owner
  rw [applies.1] at ok
  refine inv.setNodes ?_ _ s.borrows s.pins ?_
  · rcases ok.1.phase with ph | ph <;> rw [ph] <;> nofun
  rw [map_cons, sum_cons, zero_add]
  exact inv.borrowed

theorem otherPrepare : Safe (s.step .otherPrepare) := by
  dsimp only [step]
  split
  · trivial
  exact { inv with
    generation := Nat.le_succ_of_le inv.generation
    owner := inv.owner.frame rfl rfl rfl rfl rfl rfl rfl rfl }

theorem safe (step : Step) : Safe (s.step step) := by
  cases step with
  | prepare q => exact inv.prepare q
  | bind closed => exact inv.bind closed
  | park signalled expired => exact inv.park signalled expired
  | parkSelf => exact inv.parkSelf
  | parkSelfCas => exact inv.parkSelfCas
  | parkRead => exact inv.parkRead
  | parkCommit => exact inv.parkCommit
  | switchFinish => exact inv.switchFinish
  | dispatch => exact inv.dispatch
  | parkResume => exact inv.parkResume
  | finish => exact inv.finish
  | notify n gen why => exact inv.notify n
  | notifyLocked n gen why => exact inv.notifyLocked n
  | slow n => exact inv.slow n
  | slowCas n => exact inv.slowCas n
  | borrow i => exact (inv.borrows i).1
  | put i => exact (inv.borrows i).2
  | pin => exact inv.pins.1
  | unpin => exact inv.pins.2
  | otherPrepare => exact inv.otherPrepare

end State.Consistent
end

theorem State.initial_consistent : initial.Consistent where
  generation := le_rfl
  reason := by decide
  plain _ := rfl
  begun wrong := absurd rfl wrong
  once := nodup_nil
  older := nofun
  fresh := by rintro (wrong | wrong) <;> cases wrong
  taken := nofun
  returned := nofun
  owner := ⟨rfl, rfl, rfl, rfl, rfl, nofun⟩
  exchanging := nofun
  holder := nofun
  waiting := nofun
  borrowed := rfl
  finished _ := ⟨rfl, rfl⟩

theorem State.Reachable.consistent (run : s.Reachable) : s.Consistent := by
  induction run with
  | initial => exact initial_consistent
  | @step s s' step _ ran kept =>
    have safe := kept.safe step
    rw [ran] at safe
    exact safe

end BoarOS.Wait
