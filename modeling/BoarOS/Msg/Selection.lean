import BoarOS.Msg.Properties
import Mathlib.Tactic

namespace BoarOS.Msg
open Data Function List Option Msg.System

/-! # Which message a receiver gets, and which receiver a message -/

/-- What `msgrcv` promises of the message found among `ms`; `argmin` takes the earliest of the smallest. -/
def Selection (type : Int) (flags : Flags) (ms : List Message) (found : Option Message) : Prop :=
  if flags.copy then found = if type < 0 then none else ms[type.toNat]?
  else if type = 0 then found = ms.head?
  else if 0 < type then found = ms.find? fun m => if flags.except then m.type ≠ type else m.type = type
  else found = (ms.filter (·.type ≤ |type|)).argmin Message.type

variable {s s' : System} {t u q : Nat} {m : Message} {type : Int} {flags : Flags}

theorem messageFind_copy (copies : flags.copy = true) (ms : List Message) : ∀ {i : Nat},
    messageFind type flags ms none i = if type < i then none else ms[type.toNat - i]? := by
  induction ms with
  | nil => simp [messageFind]
  | cons m rest ih =>
    intro i
    rw [messageFind, if_pos copies]
    split
    next here =>
      rw [if_neg (by omega), here.2, Nat.sub_self]
      rfl
    rename_i ne
    rw [ih]
    split
    · rw [if_pos (by omega)]
    next le =>
      rw [if_neg (by omega), show type.toNat - i = type.toNat - (i + 1) + 1 by omega, getElem?_cons_succ]

theorem messageFind_first (reads : flags.copy = false) (pos : 0 ≤ type) (ms : List Message) {i : Nat} :
    messageFind type flags ms none i = ms.find? (messageMatches · type flags) := by
  induction ms with
  | nil => rfl
  | cons m rest ih =>
    rw [messageFind, if_neg (by simp [reads]), find?_cons]
    cases messageMatches m type flags with
    | false => exact ih
    | true => exact if_pos (Or.inl pos)

theorem matches_negative (neg : type < 0) (le : m.type ≤ int64Max) : messageMatches m type flags = decide (m.type ≤ |type|) := by
  rw [messageMatches, if_neg (by omega), if_pos neg, abs_of_neg neg]
  split
  next eq =>
    unfold int64Min int64Max at *
    rw [eq]
    simp only [decide_eq_decide]
    omega
  · rfl

theorem foldl_least (ms : List Message) (least : ∀ n ∈ ms, m.type ≤ n.type) :
    ms.foldl (argAux fun a b => a.type < b.type) (some m) = some m := by
  induction ms with
  | nil => rfl
  | cons n rest ih =>
    have keeps : argAux (fun a b : Message => a.type < b.type) (some m) n = some m := if_neg (not_lt.mpr (least n (.head _)))
    rw [foldl_cons, keeps]
    exact ih fun n mem => least n (.tail _ mem)

theorem messageFind_least (reads : flags.copy = false) (neg : type < 0) (ms : List Message)
    (types : ∀ m ∈ ms, 1 ≤ m.type ∧ m.type ≤ int64Max) : ∀ {best : Option Message} {i : Nat},
    (∀ b ∈ best, 1 < b.type) → messageFind type flags ms best i =
      (ms.filter (·.type ≤ |type|)).foldl (argAux fun a b => a.type < b.type) best := by
  induction ms with
  | nil => exact fun _ => rfl
  | cons m rest ih =>
    intro best i high
    obtain ⟨_, le⟩ := types m (.head _)
    have types (n : Message) (mem : n ∈ rest) := types n (.tail _ mem)
    unfold messageFind
    rw [if_neg (by simp [reads]), matches_negative neg le]
    by_cases fit : m.type ≤ |type|
    · rw [filter_cons_of_pos (by simpa using fit), foldl_cons, decide_eq_true fit, if_neg (by simp)]
      split
      · have one : m.type = 1 := by omega
        have first : argAux (fun a b : Message => a.type < b.type) best m = some m := by
          cases best with
          | none => rfl
          | some b => exact if_pos (one.trans_lt (high b rfl))
        rw [first, foldl_least _ fun n mem => one ▸ (types n (mem_filter.mp mem).1).1]
      have next (b : Message) (mem : b ∈ some m) : 1 < b.type := by
        cases mem
        omega
      cases best with
      | none => exact ih types next
      | some b =>
        change (if m.type < b.type then _ else _) = foldl _ (if m.type < b.type then some m else some b) _
        split
        · exact ih types next
        · exact ih types high
    · rw [filter_cons_of_neg (by simpa using fit), decide_eq_false fit, if_pos rfl]
      exact ih types high

theorem messageFind_selection (types : ∀ m ∈ ms, 1 ≤ m.type ∧ m.type ≤ int64Max) :
    Selection type flags ms (messageFind type flags ms none 0) := by
  unfold Selection
  split
  next copies =>
    exact messageFind_copy copies ms
  rename_i reads
  rw [Bool.not_eq_true] at reads
  split
  next any =>
    rw [messageFind_first reads (by omega), any]
    cases ms <;> rfl
  rename_i some_
  split
  next pos =>
    rw [messageFind_first reads (by omega)]
    congr 1
    funext m
    rw [messageMatches, if_neg some_, if_neg (by omega)]
  · exact messageFind_least reads (by omega) ms types nofun

theorem messageFind_append (reads : flags.copy = false) (fit : messageMatches m type flags = true) (ms : List Message)
    (out : ∀ n ∈ ms, messageMatches n type flags = false) {i : Nat} : messageFind type flags (ms ++ [m]) none i = some m := by
  induction ms with
  | nil =>
    rw [nil_append, messageFind, if_neg (by simp [reads]), fit, if_neg (by simp)]
    split <;> rfl
  | cons n rest ih =>
    rw [cons_append, messageFind, if_neg (by simp [reads]), if_pos (out n (.head _))]
    exact ih fun n mem => out n (.tail _ mem)

/-- Receivers may leave, and nobody falls asleep. -/
structure Thins (s s' : System) : Prop where
  receivers : ∀ q, (s'.queues q).receivers <+ (s.queues q).receivers
  parked : ∀ t, (s'.requests t).phase = .parked → (s.requests t).phase = .parked ∧ (s'.requests t).flags = (s.requests t).flags

namespace Thins

theorem refl (s : System) : Thins s s := ⟨fun _ => .refl _, fun _ pos => ⟨pos, rfl⟩⟩

theorem trans {mid : System} (one : Thins s mid) (two : Thins mid s') : Thins s s' where
  receivers q := (two.receivers q).trans (one.receivers q)
  parked t pos := by
    obtain ⟨pos, flags⟩ := two.parked t pos
    exact ⟨(one.parked t pos).1, flags.trans (one.parked t pos).2⟩

theorem edit {queue : Queue} {r : Request} (queues : s'.queues = update s.queues q queue)
    (requests : s'.requests = update s.requests t r) (less : queue.receivers <+ (s.queues q).receivers)
    (awake : r.phase = .parked → (s.requests t).phase = .parked ∧ r.flags = (s.requests t).flags) : Thins s s' where
  receivers p := by
    rw [queues]
    by_cases here : p = q
    · subst here
      rw [update_self]
      exact less
    · rw [update_of_ne here]
  parked u := by
    rw [requests]
    by_cases here : u = t
    · subst here
      rw [update_self]
      exact awake
    · rw [update_of_ne here]
      exact fun pos => ⟨pos, rfl⟩

theorem request {r : Request} (queues : s'.queues = s.queues) (requests : s'.requests = update s.requests t r)
    (awake : r.phase ≠ .parked) : Thins s s' :=
  .edit (q := 0) (queues.trans (update_eq_self ..).symm) requests (.refl _) fun pos => absurd pos awake

theorem queue {queue : Queue} (queues : s'.queues = update s.queues q queue) (requests : s'.requests = s.requests)
    (less : queue.receivers <+ (s.queues q).receivers) : Thins s s' :=
  .edit (t := 0) queues (requests.trans (update_eq_self ..).symm) less fun pos => ⟨pos, rfl⟩

theorem release (gone : Gone) : Thins s (s.requestRelease t gone) := by
  unfold requestRelease
  split <;> exact .request rfl rfl nofun

theorem detach (m : Message) : Thins s (s.messageDetach t m) := .edit rfl rfl (.refl _) nofun

theorem complete (res : Result) : Thins s (s.requestComplete t res) := .edit rfl rfl erase_sublist fun pos => ⟨pos, rfl⟩

theorem completeAll (res : Result) (ts : List Nat) : ∀ {s : System}, Thins s (completeAll res ts s) := by
  induction ts with
  | nil => exact .refl _
  | cons t rest ih => exact (complete res).trans ih

theorem wakeSenders (ts : List Nat) : ∀ {s : System}, Thins s (wakeSenders q ts s) := by
  induction ts with
  | nil => exact .refl _
  | cons t rest ih =>
    intro s
    rw [System.wakeSenders]
    split
    · exact (complete _).trans ih
    · exact ih

theorem handOff (pos : (s.requests t).phase ≠ .parked) : Thins s (s.handOff t u m) := by
  have sent : Thins s { s.setRequest t { s.requests t with message := none, phase := .done .ok } with
      place := update s.place m.name (.held u) } := .request rfl rfl nofun
  refine sent.trans (.edit rfl rfl erase_sublist fun parked => ?_)
  have ne : u ≠ t := by
    rintro rfl
    exact pos parked
  change (update s.requests t _ u).phase = _ ∧ _ = (update s.requests t _ u).flags
  rw [update_of_ne ne]
  exact ⟨parked, rfl⟩

theorem offer (ts : List Nat) : ∀ {s : System}, (s.requests t).phase ≠ .parked → Thins s (offer t m ts s) := by
  induction ts with
  | nil => exact fun _ => .edit rfl rfl (.refl _) nofun
  | cons u rest ih =>
    intro s pos
    rw [System.offer]
    split
    · split
      · have done : Thins s (s.requestComplete u .e2big) := complete _
        exact done.trans (ih fun parked => pos (done.parked t parked).1)
      · exact handOff pos
    · exact ih pos

end Thins

theorem step_thins {step : Step} (ran : s.step step = some s') : Thins s s' ∨ ∃ t, (s.requests t).phase = .trying ∧
    ((s.requests t).sends = false → (s.requests t).flags.nowait = false) ∧ s' = s.requestPrepare t := by
  cases step with
  | create =>
    cases ran
    exact .inl (.queue rfl rfl (nil_sublist _))
  | send | receive =>
    cases (ite_none_left_eq_some.mp ran).2
    exact .inl (.request rfl rfl nofun)
  | sendTry t permitted =>
    obtain ⟨ok, ran⟩ := ite_none_left_eq_some.mp ran
    cases ran
    simp only [not_or, not_not, Bool.not_eq_false] at ok
    dsimp only [sendTry]
    split
    · exact .inl (.request rfl rfl nofun)
    split
    · exact .inl (.request rfl rfl nofun)
    split
    · exact .inl (.refl _)
    split
    · exact .inl (.offer _ (by simp [ok.1]))
    split
    · exact .inl (.request rfl rfl nofun)
    · exact .inr ⟨t, ok.1, fun gets => (by cases ok.2.symm.trans gets), rfl⟩
  | receiveTry t permitted =>
    obtain ⟨ok, ran⟩ := ite_none_left_eq_some.mp ran
    cases ran
    simp only [not_or, not_not, Bool.not_eq_true] at ok
    dsimp only [receiveTry]
    split
    · exact .inl (.request rfl rfl nofun)
    split
    · exact .inl (.request rfl rfl nofun)
    split
    · split
      · exact .inl (.request rfl rfl nofun)
      split
      · exact .inl (.request rfl rfl nofun)
      split
      · exact .inl (.request rfl rfl nofun)
      · exact .inl ((Thins.detach _).trans (.wakeSenders _))
    split
    · exact .inl (.request rfl rfl nofun)
    next sleeps =>
      exact .inr ⟨t, ok.1, fun _ => Bool.not_eq_true _ ▸ sleeps, rfl⟩
  | wait t signalled =>
    cases (ite_none_left_eq_some.mp ran).2
    have awake (res : Result) : (if res = .again then Phase.trying
        else if res = .ok ∧ (s.requests t).sends = false then .copying else .done res) ≠ .parked := by
      split
      · nofun
      · split <;> nofun
    exact .inl (.edit rfl rfl erase_sublist fun pos => absurd pos (awake _))
  | copy t =>
    cases (ite_none_left_eq_some.mp ran).2
    exact .inl (.release _)
  | finish t =>
    dsimp only [step] at ran
    split at ran <;> cases ran
    exact .inl (.release _)
  | abort t =>
    cases (ite_none_left_eq_some.mp ran).2
    have removed : Thins s (s.requestRemove t) := .queue rfl rfl erase_sublist
    exact .inl (removed.trans (.release _))
  | ipcSet q limit =>
    cases (ite_none_left_eq_some.mp ran).2
    have limited : Thins s (s.setQueue q { s.queues q with limit := limit }) := .queue rfl rfl (.refl _)
    exact .inl ((limited.trans (.completeAll ..)).trans (.wakeSenders _))
  | ipcRmid q =>
    cases (ite_none_left_eq_some.mp ran).2
    have woken := (Thins.completeAll .eidrm (s.queues q).senders (s := s)).trans (.completeAll .eidrm (s.queues q).receivers)
    exact .inl (woken.trans (.queue rfl rfl (.refl _)))

/-- A run with a clock, and when each task last fell asleep. -/
inductive Timed : System → Nat → (Nat → Nat) → Prop where
  | initial : Timed .initial 0 fun _ => 0
  | step {s after : System} {step : Step} {clock : Nat} {since : Nat → Nat} : Timed s clock since →
      s.step step = some after → Timed after (clock + 1) fun t =>
        if (s.requests t).phase ≠ .parked ∧ (after.requests t).phase = .parked then clock else since t

/-- The receivers of a queue stand in the order in which they fell asleep. -/
structure Ordered (s : System) (clock : Nat) (since : Nat → Nat) : Prop where
  order : ∀ q, (s.queues q).receivers.Pairwise (since · < since ·)
  past : ∀ q, ∀ t ∈ (s.queues q).receivers, since t < clock
  sleeps : ∀ q, ∀ t ∈ (s.queues q).receivers, (s.requests t).flags.nowait = false

variable {clock : Nat} {since : Nat → Nat}

theorem Timed.reachable (timed : Timed s clock since) : s.Reachable := by
  induction timed with
  | initial => exact .initial
  | step _ ran ih => exact .step ih ran

theorem System.Reachable.timed (run : s.Reachable) : ∃ clock since, Timed s clock since := by
  induction run with
  | initial => exact ⟨_, _, .initial⟩
  | step _ ran ih =>
    obtain ⟨_, _, timed⟩ := ih
    exact ⟨_, _, .step timed ran⟩

theorem Timed.ordered (timed : Timed s clock since) : Ordered s clock since := by
  induction timed with
  | initial => exact ⟨fun _ => .nil, nofun, nofun⟩
  | @step s s' step clock since timed ran ih =>
    have ws := timed.reachable.consistent.waiters
    have ws' := (timed.step ran).reachable.consistent.waiters
    have old {q u : Nat} (mem : u ∈ (s.queues q).receivers) : ¬ ((s.requests u).phase ≠ .parked ∧
        (s'.requests u).phase = .parked) := fun wrong => wrong.1 (ws.receiver q u mem).phase
    have ord (q : Nat) : (s.queues q).receivers.Pairwise fun u v =>
        (if (s.requests u).phase ≠ .parked ∧ (s'.requests u).phase = .parked then clock else since u) <
          if (s.requests v).phase ≠ .parked ∧ (s'.requests v).phase = .parked then clock else since v :=
      (ih.order q).imp_of_mem fun {u v} u v lt => by
        rw [if_neg (old u), if_neg (old v)]
        exact lt
    rcases step_thins ran with thins | ⟨t, pos, sleeps, rfl⟩
    · refine ⟨fun q => (ord q).sublist (thins.receivers q), fun q u mem => ?_, fun q u mem => ?_⟩
      · have mem := (thins.receivers q).subset mem
        rw [if_neg (old mem)]
        exact (ih.past q u mem).trans (Nat.lt_succ_self _)
      · rw [(thins.parked u (ws'.receiver q u mem).phase).2]
        exact ih.sleeps q u ((thins.receivers q).subset mem)
    have self : (s.requestPrepare t).requests t = { s.requests t with phase := .parked, result := .again } := update_self ..
    have new : (s.requests t).phase ≠ .parked ∧ ((s.requestPrepare t).requests t).phase = .parked := by
      rw [self, pos]
      exact ⟨nofun, rfl⟩
    have listed (q : Nat) : ((s.requestPrepare t).queues q).receivers <+ (s.queues q).receivers ++ [t] := by
      change (update s.queues _ _ q).receivers <+ _
      by_cases here : q = (s.requests t).queue
      · subst here
        rw [update_self]
        split
        · exact sublist_append_left ..
        · exact .refl _
      · rw [update_of_ne here]
        exact sublist_append_left ..
    refine ⟨fun q => Pairwise.sublist (listed q) ?_, fun q u mem => ?_, fun q u mem => ?_⟩
    · refine pairwise_append.mpr ⟨ord q, pairwise_singleton .., fun u mem v last => ?_⟩
      rw [mem_singleton.mp last, if_neg (old mem), if_pos new]
      exact ih.past q u mem
    · rcases mem_append.mp ((listed q).subset mem) with mem | last
      · rw [if_neg (old mem)]
        exact (ih.past q u mem).trans (Nat.lt_succ_self _)
      · rw [mem_singleton.mp last, if_pos new]
        exact Nat.lt_succ_self _
    by_cases eq : u = t
    · subst eq
      have gets := (ws'.receiver q u mem).sends
      rw [self] at gets ⊢
      exact sleeps gets
    · rw [show (s.requestPrepare t).requests u = _ from update_of_ne eq ..]
      have mem := mem_append.mp ((listed q).subset mem)
      exact ih.sleeps q u (mem.resolve_right fun last => eq (mem_singleton.mp last))

/-- Who gets the message of a send. If the queue accepts it, the receiver that has waited longest of those that match it and
can take it has it then, with success, and the queue has it if there is none. -/
structure Delivers (s s' : System) (since : Nat → Nat) (t : Nat) (permitted : Bool) (m : Message) : Prop where
  gets : (s.queueOf t).removed = false → permitted = true → fits (s.queueOf t) (s.requests t).size = true →
    ∀ v ∈ (s.queueOf t).receivers, s.takes m v → ∃ u, s'.place m.name = .held u ∧
      (s'.requests u).message = some m ∧ (s'.requests u).result = .ok
  kept : (s.queueOf t).removed = false → permitted = true → fits (s.queueOf t) (s.requests t).size = true →
    (∀ v ∈ (s.queueOf t).receivers, s.takes m v = false) → s'.place m.name = .stored (s.requests t).queue
  held : ∀ u, s'.place m.name = .held u → u ∈ (s.queueOf t).receivers ∧ s.takes m u ∧
    (∀ v ∈ (s.queueOf t).receivers, s.takes m v → v ≠ u → since u < since v) ∧
    messageFind (s.requests u).type (s.requests u).flags ((s.queueOf t).messages ++ [m]) none 0 = some m
  stored : ∀ q, s'.place m.name = .stored q → ∀ u ∈ (s.queueOf t).receivers, s.takes m u = false

theorem Timed.delivers {permitted : Bool} (timed : Timed s clock since) (ran : s.step (.sendTry t permitted) = some s')
    (mine : (s.requests t).message = some m) : Delivers s s' since t permitted m := by
  have inv := timed.reachable.consistent
  have ordered := timed.ordered
  dsimp only [System.step] at ran
  split at ran <;> cases ran
  rename_i ok
  simp only [not_or, not_not, Bool.not_eq_false] at ok
  have outgoing := inv.outgoing ok.2 mine
  have stays {s' : System} (eq : s'.place = s.place) (refused : (s.queueOf t).removed = false → permitted = true →
      fits (s.queueOf t) (s.requests t).size = true → False) : Delivers s s' since t permitted m := by
    refine ⟨fun live may room => (refused live may room).elim, fun live may room => (refused live may room).elim,
      fun _ pos => ?_, fun _ pos => ?_⟩ <;> rw [eq, outgoing] at pos <;> cases pos
  dsimp only [sendTry]
  rw [mine]
  split
  next gone => exact stays rfl fun live => by cases gone.symm.trans live
  split
  next barred => exact stays rfl fun _ may => by cases barred.symm.trans may
  dsimp only
  split
  · have pos := congrFun (offer_place (t := t) (m := m) (s.queueOf t).receivers (s := s)) m.name
    rw [update_self] at pos
    cases found : (s.queueOf t).receivers.find? (s.takes m) with
    | none =>
      rw [found] at pos
      refine ⟨fun _ _ _ v mem fit => ?_, fun _ _ _ _ => pos, fun u held => (by cases pos.symm.trans held), fun _ _ u mem => ?_⟩
      · exact absurd fit (find?_eq_none.mp found v mem)
      exact Bool.not_eq_true _ ▸ find?_eq_none.mp found u mem
    | some w =>
      rw [found] at pos
      have given := offer_given (t := t) _ found
      refine ⟨fun _ _ _ _ _ _ => ⟨w, pos, by rw [given], by rw [given]⟩, fun _ _ _ none_ => ?_, fun u held => ?_,
        fun q stored => (by cases pos.symm.trans stored)⟩
      · cases (none_ w (mem_of_find?_eq_some found)).symm.trans (find?_some found)
      cases pos.symm.trans held
      obtain ⟨takes, _, _, split, refused⟩ := find?_eq_some_iff_append.mp found
      have ord := ordered.order (s.requests t).queue
      have mem : w ∈ (s.queueOf t).receivers := mem_of_find?_eq_some found
      have waits := inv.waiters.receiver _ w mem
      refine ⟨mem, takes, fun v listed fit ne => ?_, messageFind_append ?_ ?_ _ (inv.waiters.starved _ w mem)⟩
      · rw [split] at listed
        rw [show (s.queues (s.requests t).queue).receivers = _ from split] at ord
        rcases mem_append.mp listed with listed | listed
        · have out := refused v listed
          rw [fit] at out
          cases out
        · exact (pairwise_cons.mp (pairwise_append.mp ord).2.1).1 v ((mem_cons.mp listed).resolve_left ne)
      · by_contra copies
        have nowait := inv.waiters.copies w waits.sends (Bool.not_eq_false _ ▸ copies)
        cases nowait.symm.trans (ordered.sleeps _ w mem)
      · exact (Bool.and_eq_true_iff.mp takes).1
  next full => split <;> exact stays rfl fun _ _ room => full room

theorem msgrcv_selection : (∀ type flags ms, (∀ m ∈ ms, 1 ≤ m.type ∧ m.type ≤ int64Max) →
      Selection type flags ms (messageFind type flags ms none 0)) ∧
    (∀ s, s.Reachable → ∃ clock since, Timed s clock since) ∧
    ∀ s clock since t permitted s' m, Timed s clock since → s.step (.sendTry t permitted) = some s' →
      (s.requests t).message = some m → Delivers s s' since t permitted m :=
  ⟨fun _ _ _ types => messageFind_selection types, fun _ run => run.timed, fun _ _ _ _ _ _ _ timed ran mine => timed.delivers ran mine⟩

/-- The least type up to 3 is selected, not the first; and a message passes a receiver that does not match it. -/
theorem msgrcv_selection_handed : Selection (-3) ⟨false, false, false, false⟩ [⟨0, 3, 1⟩, ⟨1, 2, 1⟩, ⟨2, 2, 1⟩] (some ⟨1, 2, 1⟩) ∧
    ∃ s s' since, s.step (.sendTry 2 true) = some s' ∧ (s.queueOf 2).receivers = [0, 1] ∧ s'.place 0 = .held 1 ∧
      (s'.requests 1).message = some ⟨0, 7, 4⟩ ∧ Delivers s s' since 2 true ⟨0, 7, 4⟩ := by
  refine ⟨msgrcv_selection.1 _ _ _ (by decide), ?_⟩
  have ran : ((initial.run [.create, .receive 0 0 5 8 ⟨false, false, false, false⟩, .receiveTry 0 true,
      .receive 1 0 7 8 ⟨false, false, false, false⟩, .receiveTry 1 true, .send 2 0 7 4 ⟨false, false, false, false⟩]).bind fun s =>
      (s.step (.sendTry 2 true)).map fun s' => ((s.queueOf 2).receivers, (s.requests 2).message, s'.place 0, (s'.requests 1).message)) =
      some ([0, 1], some ⟨0, 7, 4⟩, .held 1, some ⟨0, 7, 4⟩) := by decide +kernel
  obtain ⟨s, run, ran⟩ := Option.bind_eq_some_iff.mp ran
  obtain ⟨s', stepped, seen⟩ := Option.map_eq_some_iff.mp ran
  simp only [Prod.mk.injEq] at seen
  obtain ⟨clock, since, timed⟩ := msgrcv_selection.2.1 s (Reachable.initial.run run)
  exact ⟨s, s', since, stepped, seen.1, seen.2.2.1, seen.2.2.2, msgrcv_selection.2.2 _ _ _ _ _ _ _ timed stepped seen.2.1⟩

end BoarOS.Msg
