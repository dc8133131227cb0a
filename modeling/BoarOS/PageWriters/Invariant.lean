import BoarOS.PageWriters.Word

namespace BoarOS.PageWriters
open Function PageWriters.System

/-! # What holds between two steps

At most one task owns the page, and the flag and the closed bits are those that its
phase calls for. Each phase of an owner has its own view of the mappings, the borrows
and the bytes. A parked task whose condition holds is owed a wake.
-/

def Phase.flag : Phase → Bool
  | .selected _ _ | .abandoning | .capturing _ | .captured _ | .submitted _ => true
  | .rearming (.writeback _ _ _) _ | .draining (.writeback _ _ _) | .undoing (.writeback _ _ _) => true
  | _ => false

def Phase.closed : Phase → Bool
  | .rearming _ _ | .draining _ | .undoing _ | .capturing _ | .resized => true
  | _ => false

def Phase.entry : Phase → Bool
  | .rearming (.resize _) _ | .draining (.resize _) | .undoing (.resize _) | .resized => true
  | _ => false

def Phase.owns (phase : Phase) : Bool := phase.flag || phase.entry

theorem Phase.closed_owns {ph : Phase} (closed : ph.closed = true) : ph.owns = true := by
  cases ph with
  | rearming closer walk | draining closer | undoing closer => cases closer <;> rfl
  | capturing | resized => rfl
  | _ => cases closed

theorem Phase.not_owns {ph : Phase} (not : ph.owns = false) : ph.flag = false ∧ ph.closed = false ∧ ph.entry = false := by
  have parts := Bool.or_eq_false_iff.mp not
  refine ⟨parts.1, ?_, parts.2⟩
  cases closed : ph.closed with
  | false => rfl
  | true => rw [Phase.closed_owns closed] at not; cases not

def System.ownerBit (s : System) (owner : Option Nat) (bit : Phase → Bool) : Bool :=
  owner.elim false fun task => bit (s.phase task)

structure Ownership (s : System) (owner : Option Nat) : Prop where
  owns : ∀ task, (s.phase task).owns = true ↔ owner = some task
  flag : s.writeback = s.ownerBit owner Phase.flag
  word : s.writes = pack (s.ownerBit owner Phase.closed) (s.ownerBit owner Phase.entry) s.borrows.length
  small : s.borrows.length < 2 ^ 32
  loaded : owner ≠ none → s.loading = false

section Ownership
variable {s s' : System} {owner : Option Nat} {task : Nat} {ph : Phase}

section
variable (held : Ownership s owner)
include held

theorem Ownership.writesClosed : writesClosed s.writes = s.ownerBit owner Phase.closed := by
  rw [held.word, pack_writesClosed held.small]

theorem Ownership.entryClosed : entryClosed s.writes = s.ownerBit owner Phase.entry := by
  rw [held.word, pack_entryClosed held.small]

theorem Ownership.writerCount : writerCount s.writes = s.borrows.length := by
  rw [held.word, pack_writerCount held.small]

theorem Ownership.strayBits : strayBits s.writes = false := by
  rw [held.word, pack_strayBits held.small]

theorem Ownership.mine (owns : (s.phase task).owns = true) : owner = some task ∧ s.writeback = (s.phase task).flag ∧
      s.writes = pack (s.phase task).closed (s.phase task).entry s.borrows.length := by
  have eq := (held.owns task).mp owns
  have flag := held.flag
  have word := held.word
  subst eq
  exact ⟨rfl, flag, word⟩

theorem Ownership.free (flag : s.writeback = false) (closed : PageWriters.writesClosed s.writes = false) : owner = none := by
  cases owner with
  | none => rfl
  | some holder =>
    have owns := (held.owns holder).mpr rfl
    rw [held.flag] at flag
    rw [held.writesClosed] at closed
    have no : (s.phase holder).entry = false := by
      cases entry : (s.phase holder).entry with
      | false => rfl
      | true =>
        have shut : (s.phase holder).closed = true := by
          cases now : s.phase holder <;> simp_all [Phase.entry, Phase.closed]
        exact absurd closed (by simpa [ownerBit] using shut)
    have quiet : (s.phase holder).flag = false := flag
    rw [Phase.owns, quiet, no] at owns
    cases owns

theorem Ownership.open (opened : PageWriters.anyClosed s.writes = false) (k : Nat) : (s.phase k).closed = false := by
  cases closed : (s.phase k).closed with
  | false => rfl
  | true =>
    have mine := held.mine (Phase.closed_owns closed)
    rw [mine.2.2, pack_anyClosed held.small, closed] at opened
    cases opened

theorem Ownership.pass (phases : s'.phase = update s.phase task ph) (quiet : (s.phase task).owns = false)
    (still : ph.owns = false) (flag : s'.writeback = s.writeback) (word : s'.writes = s.writes)
    (borrows : s'.borrows = s.borrows) (loading : s.loading = false → s'.loading = false) : Ownership s' owner := by
  have bits : ∀ bit, s'.ownerBit owner bit = s.ownerBit owner bit := by
    intro bit
    cases owner with
    | none => rfl
    | some holder =>
      have ne : holder ≠ task := by
        rintro rfl
        rw [(held.owns holder).mpr rfl] at quiet
        cases quiet
      simp [ownerBit, phases, update_of_ne ne]
  refine ⟨?_, ?_, ?_, ?_, fun taken => loading (held.loaded taken)⟩
  · intro cand
    rw [phases]
    by_cases eq : cand = task
    · subst eq
      rw [update_self, still, ← held.owns cand, quiet]
    · rw [update_of_ne eq]
      exact held.owns cand
  · rw [bits, flag]
    exact held.flag
  · rw [bits, bits, word, borrows]
    exact held.word
  · rw [borrows]
    exact held.small

theorem Ownership.settle (mine : owner = none ∨ owner = some task) (phases : s'.phase = update s.phase task ph)
    (flag : s'.writeback = ph.flag) (word : s'.writes = pack ph.closed ph.entry s.borrows.length) (borrows : s'.borrows = s.borrows)
    (loaded : ph.owns = true → s'.loading = false) : Ownership s' (if ph.owns then some task else none) := by
  have now : s'.phase task = ph := by rw [phases, update_self]
  have rest : ∀ k, k ≠ task → (s'.phase k).owns = false := by
    intro k ne
    rw [phases, update_of_ne ne, Bool.eq_false_iff]
    intro owns
    have holds := (held.owns k).mp owns
    rcases mine with free | own
    · rw [free] at holds
      cases holds
    · rw [own] at holds
      exact ne (Option.some.inj holds).symm
  have bits : ∀ bit : Phase → Bool, (ph.owns = false → bit ph = false) →
      s'.ownerBit (if ph.owns then some task else none) bit = bit ph := by
    intro bit quiet
    cases owns : ph.owns with
    | true => simp [ownerBit, now]
    | false => simp [ownerBit, quiet owns]
  refine ⟨?_, ?_, ?_, borrows ▸ held.small, ?_⟩
  · intro cand
    by_cases eq : cand = task
    · subst eq
      rw [now]
      cases ph.owns <;> simp
    · rw [rest cand eq]
      cases ph.owns <;> simp [Ne.symm eq]
  · rw [bits Phase.flag fun quiet => (Phase.not_owns quiet).1]
    exact flag
  · rw [bits Phase.closed fun quiet => (Phase.not_owns quiet).2.1, bits Phase.entry fun quiet => (Phase.not_owns quiet).2.2, borrows]
    exact word
  · intro taken
    cases owns : ph.owns with
    | true => exact loaded owns
    | false => simp [owns] at taken

end
end Ownership

def System.link (s : System) (mapping : Nat) : Option Nat := (s.aliasOf mapping).retiredNext

def System.Storable (s : System) (mapping : Nat) : Prop :=
  s.live (s.aliasOf mapping).space = true ∧ (s.aliasOf mapping).leaf = .writable

/-- The leaf is writable, or a fault that has been admitted is about to make it so. -/
def System.Exposed (s : System) (mapping : Nat) : Prop :=
  s.Storable mapping ∨ ∃ task, s.phase task = .faulting mapping

/-- The mappings that a walk standing at the given alias has still to see. -/
inductive Leads (aliases : List Nat) (link : Nat → Option Nat) : Option Nat → List Nat → Prop where
  | stop : Leads aliases link none []
  | here {mapping : Nat} {before rest : List Nat} : aliases = before ++ mapping :: rest →
      Leads aliases link (some mapping) (mapping :: rest)
  | onward {mapping : Nat} {rest : List Nat} : mapping ∉ aliases → Leads aliases link (link mapping) rest →
      Leads aliases link (some mapping) rest

structure Mappings (s : System) : Prop where
  nodup : s.aliases.Nodup
  known : ∀ mapping ∈ s.aliases, mapping < s.nextAlias
  linked : ∀ mapping next, s.link mapping = some next → next < s.nextAlias
  listed : ∀ mapping, s.Storable mapping → mapping ∈ s.aliases

def System.Covered (s : System) (mapping : Nat) : Prop :=
  mapping < s.nextAlias ∧ ∃ rest, Leads s.aliases s.link (some mapping) rest ∧ ∀ other, s.Exposed other → other ∈ rest

def System.Covers (s : System) : Phase → Prop
  | .rearming _ (.visit mapping) => s.Covered mapping
  | .rearming _ (.advance mapping) => s.Covered mapping ∧ ¬ s.Exposed mapping
  | .draining _ | .capturing _ | .resized => ∀ mapping, ¬ s.Exposed mapping
  | _ => True

def System.Drained (s : System) : Phase → Prop
  | .rearming (.writeback _ _ false) _ | .capturing _ | .resized => s.borrows = []
  | _ => True

def System.Copied (s : System) : Phase → Prop
  | .capturing version => ∀ copy ∈ version, s.content copy.1 = copy.2
  | _ => True

structure System.View (s : System) (phase : Phase) : Prop where
  covers : s.Covers phase
  drained : s.Drained phase
  copied : s.Copied phase

section View
variable {s s' : System} {ph : Phase}

theorem System.View.unclosed (opened : ph.closed = false) : s.View ph := by
  cases ph with
  | rearming | draining | undoing | capturing | resized => cases opened
  | _ => exact ⟨trivial, trivial, trivial⟩

theorem System.Covered.mono (seen : s.Covered mp) (aliases : s'.aliases = s.aliases) (links : s'.link = s.link)
    (next : s.nextAlias ≤ s'.nextAlias) (exposed : ∀ mp, s'.Exposed mp → s.Exposed mp) : s'.Covered mp := by
  obtain ⟨_, rest, leads, all⟩ := seen
  refine ⟨by omega, rest, ?_, fun k shown => all k (exposed k shown)⟩
  rw [aliases, links]
  exact leads

/-- Nothing that an owner relies on is lost when its walk still covers every mapping. -/
theorem System.View.map (view : s.View ph) (seen : ∀ mp, s.Covered mp → s'.Covered mp) (exposed : ∀ mp, s'.Exposed mp → s.Exposed mp)
    (borrows : s.borrows = [] → s'.borrows = []) (text : ∀ ver, ph = .capturing ver → s'.content = s.content) : s'.View ph := by
  obtain ⟨covers, drained, copied⟩ := view
  refine ⟨?_, ?_, ?_⟩
  · cases ph with
    | rearming closer walk =>
      cases walk with
      | visit mp => exact seen mp covers
      | advance mp => exact ⟨seen mp covers.1, fun shown => covers.2 (exposed mp shown)⟩
    | draining | capturing | resized => exact fun mp shown => covers mp (exposed mp shown)
    | _ => trivial
  · cases ph with
    | rearming closer walk =>
      cases closer with
      | writeback background pins writing =>
        cases writing with
        | false => exact borrows drained
        | true => trivial
      | resize pins => trivial
    | capturing | resized => exact borrows drained
    | _ => trivial
  · cases ph with
    | capturing ver =>
      intro copy mem
      rw [text ver rfl]
      exact copied copy mem
    | _ => trivial

theorem System.View.mono (view : s.View ph) (aliases : s'.aliases = s.aliases) (links : s'.link = s.link)
    (next : s.nextAlias ≤ s'.nextAlias) (exposed : ∀ mp, s'.Exposed mp → s.Exposed mp)
    (borrows : s.borrows = [] → s'.borrows = []) (text : ∀ ver, ph = .capturing ver → s'.content = s.content) : s'.View ph :=
  view.map (fun _ seen => seen.mono aliases links next exposed) exposed borrows text

end View

/-- The condition that a task in the given phase waits for. -/
def System.Ready (s : System) : Phase → Prop
  | .writable => s.retired = true ∨ anyClosed s.writes = false
  | .readable => s.loading = false ∧ entryClosed s.writes = false
  | .selecting _ _ => s.retired = true ∨ (s.writeback = false ∧ writesClosed s.writes = false)
  | .resizing _ => s.writeback = false ∧ s.loading = false ∧ anyClosed s.writes = false
  | .draining _ => writerCount s.writes = 0
  | _ => True

def System.Owed (s : System) : Prop :=
  s.loadNotice = true ∨ ∃ task version, s.phase task = .captured version

def Phase.waits : Phase → Bool
  | .writable | .readable | .selecting _ _ | .resizing _ | .draining _ => true
  | _ => false

def System.Woken (s : System) : Prop :=
  ∀ task, s.parked task = true → (s.phase task).waits = true ∧ (s.Ready (s.phase task) → s.Owed)

structure Faults (s : System) (task mapping : Nat) : Prop where
  listed : mapping ∈ s.aliases
  gate : s.gate (s.aliasOf mapping).space = some task
  live : s.live (s.aliasOf mapping).space = true
  borrow : .fault task ∈ s.borrows

structure Consistent (s : System) : Prop where
  owned : ∃ owner, Ownership s owner
  mappings : Mappings s
  faults : ∀ task mapping, s.phase task = .faulting mapping → Faults s task mapping
  views : ∀ task, s.View (s.phase task)
  woken : s.Woken

theorem Consistent.initial (text : Nat → UInt8) : Consistent { content := text } where
  owned := ⟨none, by
    refine ⟨fun task => ?_, rfl, rfl, by simp, fun taken => absurd rfl taken⟩
    simp [Phase.owns, Phase.flag, Phase.entry]⟩
  mappings := by
    refine ⟨List.nodup_nil, by simp, fun mp next link => ?_, fun mp shown => ?_⟩
    · cases link
    · cases shown.2
  faults := fun task mp fault => by cases fault
  views := fun task => View.unclosed rfl
  woken := fun task parked => by cases parked

end BoarOS.PageWriters
