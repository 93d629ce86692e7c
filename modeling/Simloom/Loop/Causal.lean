import Simloom.Loop.Noting

/-! Causal edges name the true cause, where causes can be traced.

A step takes a handle and with it its entry in the dictionary of causes, which names the step
that made the handle (`execute_steps`); nothing else but running code changes the dictionary
(`Quiet`). After a step of a drain, which is not numbered, what is made is beyond a barrier. -/
namespace Simloom.SimLoop
open Theory
variable {R : RandomSource} {σ J κ : Type}
variable {c : LoopConfig R σ J κ} {l l' : SimLoop R σ J κ} {h k : Handle J}
variable {births : List Nat} {barrier : Option Nat}

/-! ### Taking a handle -/

/-- A handle that a step may take. -/
structure Takeable (l : SimLoop R σ J κ) (index : Nat) (h : Handle J) : Prop where
  hand : l.agenda.hand = none
  ready : l.agenda.ready[index]? = some h
  live : l.agenda.isDead h = false

theorem Takeable.pending {index : Nat} (ht : Takeable l index h) : h ∈ l.pending :=
  List.mem_append_left _ (List.mem_append_left _ (List.mem_of_getElem? ht.ready))

theorem Takeable.isCancelled {index : Nat} (ht : Takeable l index h) :
    l.agenda.isCancelled h = false := (Bool.or_eq_false_iff.mp ht.live).1

theorem Takeable.distinct {index : Nat} (ht : Takeable l index h) (hd : l.agenda.Distinct) :
    (l.agenda.take index).Distinct := by
  refine Agenda.keeps_distinct _ (.take index) _ trivial hd (if_pos ?_)
  simp [ht.hand, ht.ready, ht.live]

theorem pending_nodup (hd : l.agenda.Distinct) : (l.pending.map Handle.id).Nodup := by
  refine hd.nodup.sublist (List.Sublist.map _ ?_)
  unfold pending Agenda.everywhere
  rw [List.append_assoc, List.append_assoc, List.append_assoc, List.append_assoc]
  exact ((List.nil_sublist _).append ((List.nil_sublist _).append (.refl _)))

/-- Pending handles are told apart by their ids. -/
theorem pending_inj (hd : l.agenda.Distinct) (hh : h ∈ l.pending) (hk : k ∈ l.pending)
    (hid : h.id = k.id) : h = k := List.inj_on_of_nodup_map (pending_nodup hd) hh hk hid

theorem Takeable.mem_pending {index : Nat} (ht : Takeable l index h) (hd : l.agenda.Distinct)
    (hagenda : l'.agenda = l.agenda.take index) (k : Handle J) :
    k ∈ l'.pending ↔ k ∈ l.pending ∧ k.id ≠ h.id := by
  obtain ⟨hlt, hget⟩ := List.getElem?_eq_some_iff.mp ht.ready
  have hperm : (h :: l'.pending).Perm l.pending := by
    have herase := List.getElem_cons_eraseIdx_perm hlt
    rw [hget] at herase
    unfold SimLoop.pending
    rw [hagenda]
    exact ((herase.append_right _).append_right _)
  have hnodup := (hperm.map Handle.id).nodup_iff.mpr (pending_nodup hd)
  rw [List.map_cons, List.nodup_cons] at hnodup
  constructor
  · intro hk
    exact ⟨hperm.subset (List.mem_cons_of_mem _ hk), fun hid =>
      hnodup.1 (hid ▸ List.mem_map_of_mem hk)⟩
  · rintro ⟨hk, hid⟩
    rcases List.mem_cons.mp (hperm.symm.subset hk) with rfl | hk
    · exact absurd rfl hid
    · exact hk

/-- The entries of the other handles stay. -/
theorem Noted.take (hsame : LawfulSame c.code.same) (hcausal : c.causal = true)
    (hn : Noted c births barrier l) {index : Nat} (ht : Takeable l index h) {barrier' : Option Nat}
    (hcauses : l'.causes = (l.causeFields c h).2) (hagenda : l'.agenda = l.agenda.take index)
    (hsteps : l'.stepCount = l.stepCount + 1)
    (hnumbered : barrier' = none → l'.stepSeq = l'.stepCount ∧ l'.currentStep = lastStep l'.stepCount)
    (hwalled : ∀ b ∈ barrier', b ≤ l.agenda.made)
    (hearlier : ∀ id < l.agenda.made, (∀ b ∈ barrier', id < b) → ∀ b ∈ barrier, id < b) :
    Noted c births barrier' l' := by
  have hpending := ht.mem_pending hn.distinct hagenda
  have hcancelled (k : Handle J) : l'.agenda.isCancelled k = l.agenda.isCancelled k := by
    rw [hagenda]
    rfl
  rw [causeFields_causes hcausal] at hcauses
  have hmem {entry : Handle J × Cause} (he : entry ∈ l'.causes) : entry ∈ l.causes :=
    List.eraseP_subset (hcauses ▸ he)
  exact {
    counted := by rw [hagenda]; exact hn.counted
    past := fun birth hb => hsteps ▸ Nat.le_succ_of_le (hn.past birth hb)
    distinct := hagenda ▸ ht.distinct hn.distinct
    numbered := hnumbered
    fresh := fun h0 => by rw [hsteps] at h0; cases h0
    walled := fun b hb => by rw [hagenda]; exact hwalled b hb
    keys := by
      intro entry he hlive
      rw [hcancelled] at hlive
      have hkey := hn.keys entry (hmem he) hlive
      refine (hpending _).mpr ⟨hkey, fun hid => ?_⟩
      -- the entry of the handle that is taken was the first that equals it
      have hself : entry.1 = h := pending_inj hn.distinct hkey ht.pending hid
      have heq : l.equalHandles c h entry.1 = true :=
        (equalHandles_iff ht.isCancelled).mpr ⟨hself ▸ alike_refl hsame _, hlive⟩
      obtain ⟨e, _, hfirst, hapart⟩ :=
        exists_of_mem_eraseP (List.pairwise_map.mp hn.apart) (hcauses ▸ he) heq
      obtain ⟨halike, hlive'⟩ := (equalHandles_iff ht.isCancelled).mp hfirst
      exact hapart hlive' hlive (hself ▸ halike)
    apart := by
      simp only [hcancelled]
      rw [hcauses]
      exact hn.apart.sublist (List.eraseP_sublist.map _)
    unlike := by
      intro k hk k' hk' hlive hlive' hid halike
      rw [hcancelled] at hlive hlive'
      exact hn.unlike k ((hpending k).mp hk).1 k' ((hpending k').mp hk').1 hlive hlive' hid halike
    cause := by
      intro k hk hlive hb entry he hlive' halike
      rw [hcancelled] at hlive hlive'
      have hold := ((hpending k).mp hk).1
      exact hn.cause k hold hlive (hearlier _ (mem_pending_lt hn.distinct hold) hb) entry (hmem he)
        hlive' halike
    own := by
      intro k hk hlive hbirth
      rw [hcancelled] at hlive
      obtain ⟨hold, hid⟩ := (hpending k).mp hk
      obtain ⟨entry, he, hkey⟩ := hn.own k hold hlive hbirth
      refine ⟨entry, ?_, hkey⟩
      rw [hcauses]
      refine (List.mem_eraseP_of_neg fun heq => ?_).mpr he
      have halike := ((equalHandles_iff ht.isCancelled).mp heq).1
      rw [hkey] at halike
      exact hbirth (hn.unlike h ht.pending k hold ht.isCancelled hlive hid.symm halike).2 }

open Chronicle in
/-- The step names the cause of the handle it takes. -/
theorem takeStep_true (hsame : LawfulSame c.code.same) (hcausal : c.causal = true)
    (hn : Noted c births barrier l) {index : Nat} (count : Nat) (ht : Takeable l index h)
    (hb : ∀ b ∈ barrier, h.id < b) :
    ∃ e, (l.takeStep c index count h).steps = l.steps ++ [e] ∧ TrueCause births l.stepCount h e := by
  refine ⟨_, by simp [steps, takeStep, emit]; rfl, ?_⟩
  obtain ⟨birth, hbirth⟩ := hn.birth ht.pending
  refine ⟨birth, hbirth, hn.past birth (List.mem_of_getElem? hbirth), ?_⟩
  unfold causeFields
  rw [if_pos hcausal]
  cases hfind : l.causes.find? fun entry => l.equalHandles c h entry.1 with
  | none =>
    cases birth with
    | zero => rfl
    | succ n =>
      obtain ⟨entry, he, hkey⟩ := hn.own h ht.pending ht.isCancelled (by simp [hbirth])
      have heq : l.equalHandles c h entry.1 = true :=
        (equalHandles_iff ht.isCancelled).mpr ⟨hkey ▸ alike_refl hsame _, hkey ▸ ht.isCancelled⟩
      exact absurd heq (List.find?_eq_none.mp hfind entry he)
  | some entry =>
    have heq := List.find?_some hfind
    obtain ⟨halike, hlive⟩ := (equalHandles_iff ht.isCancelled).mp heq
    obtain ⟨birth', hbirth', hwoke, hvia⟩ := hn.cause h ht.pending ht.isCancelled hb entry
      (List.mem_of_find?_eq_some hfind) hlive halike
    obtain rfl : birth = birth' := Option.some.inj (hbirth.symm.trans hbirth')
    cases birth with
    | zero =>
      show Option.map Prod.snd _ = _
      simp [hwoke, lastStep]
    | succ n =>
      constructor
      · simp [Event.field, hwoke, lastStep]
      · simp [Event.field, hvia]

/-! ### What is quiet -/

/-- The agenda moves what it has and drops what is cancelled. -/
theorem quiet_of_agenda (hcauses : l'.causes = l.causes) (hcurrent : l'.currentStep = l.currentStep)
    (hseq : l'.stepSeq = l.stepSeq) (hsteps : l'.steps = l.steps)
    (hcame : Came True True l.agenda l'.agenda)
    (hcancelled : l'.agenda.cancelled = l.agenda.cancelled)
    (hpending : ∀ h, l.agenda.isCancelled h = false → (h ∈ l'.pending ↔ h ∈ l.pending)) :
    Quiet l l' where
  causes := hcauses
  currentStep := hcurrent
  stepSeq := hseq
  steps := hsteps
  made := hcame.made
  cancelled := hcancelled
  distinct hd := (Agenda.keeps_distinct.mono fun _ _ _ => trivial).reaches hd hcame.follows
  pending := hpending

@[simp] theorem compact_cancelled (a : Agenda J) : a.compact.cancelled = a.cancelled := by
  unfold Agenda.compact
  split <;> rfl

/-- Compaction parks what it does not drop. -/
theorem mem_compact (a : Agenda J) (hlive : a.isCancelled h = false) :
    h ∈ a.compact.ready ++ a.compact.scheduled ++ a.compact.parked ↔
      h ∈ a.ready ++ a.scheduled ++ a.parked := by
  unfold Agenda.compact
  split
  · simp only [Agenda.compactReady, Agenda.park, List.mem_append, List.mem_filter, Agenda.isOrphan,
      Agenda.isDead, hlive]
    grind
  · rfl

theorem mem_dropWhile_of_not {α : Type} {p : α → Bool} {xs : List α} {x : α} (hx : p x = false) :
    x ∈ xs.dropWhile p ↔ x ∈ xs := by
  refine ⟨fun h => (List.dropWhile_sublist p).subset h, fun h => ?_⟩
  rw [← List.takeWhile_append_dropWhile (p := p) (l := xs)] at h
  rcases List.mem_append.mp h with h | h
  · rw [List.mem_takeWhile_imp h] at hx
    cases hx
  · exact h

theorem quiet_tidy (l : SimLoop R σ J κ) : Quiet l l.tidy := by
  refine quiet_of_agenda rfl rfl rfl rfl tidy_came (compact_cancelled _) fun h hlive => ?_
  refine (mem_compact l.agenda.dropTops hlive).trans ?_
  unfold Agenda.dropTops pending
  simp only [List.mem_append, mem_dropWhile_of_not hlive]

theorem quiet_compact (l : SimLoop R σ J κ) : Quiet l {l with agenda := l.agenda.compact} := by
  refine quiet_of_agenda rfl rfl rfl rfl ⟨compact_follows _, compact_hand _, ?_, ?_⟩
    (compact_cancelled _) fun h hlive => mem_compact l.agenda hlive
  · show l.agenda.compact.made = _
    unfold Agenda.compact
    split <;> rfl
  · intro h hh
    rw [Agenda.compact_ready, Agenda.compact_scheduled] at hh
    simp only [List.mem_append, List.mem_filter] at hh ⊢
    exact hh.imp_left And.left

theorem quiet_wake (l : SimLoop R σ J κ) : Quiet l l.wake := by
  refine quiet_of_agenda rfl rfl rfl rfl (wake_came _) rfl fun h hlive => ?_
  have hsplit := List.mem_append (a := h) (s := l.agenda.dueTimers)
    (t := l.agenda.scheduled.dropWhile fun h => h.time ≤ l.agenda.now)
  rw [show l.agenda.dueTimers ++ (l.agenda.scheduled.dropWhile fun h => h.time ≤ l.agenda.now) =
    l.agenda.scheduled from List.takeWhile_append_dropWhile] at hsplit
  simp only [wake, pending, Agenda.wake, Agenda.withhold, Agenda.park, List.mem_append,
    List.mem_filter, Agenda.isOrphan, Agenda.isDead, hlive, hsplit]
  grind

/-- An event that is no step. -/
theorem quiet_log {e : Event} (hkind : e.kind ≠ "step") : Quiet l {l with log := l.log ++ [e]} :=
  ⟨rfl, rfl, rfl, by simp [steps, hkind], rfl, rfl, id, fun _ _ => Iff.rfl⟩

theorem quiet_conclude (verdict : MonitorSet σ × Option Violation) : Quiet l (l.conclude verdict).1 := by
  obtain ⟨ms, v⟩ := verdict
  cases v with
  | none => exact ⟨rfl, rfl, rfl, rfl, rfl, rfl, id, fun _ _ => Iff.rfl⟩
  | some v => exact ⟨rfl, rfl, rfl, by simp [steps, conclude], rfl, rfl, id, fun _ _ => Iff.rfl⟩

theorem quiet_arrive {time : ℚ} (h : l.agenda.Awaits time) : Quiet l (l.arrive time) :=
  quiet_of_agenda rfl rfl rfl rfl (advance_came h) rfl fun _ _ => Iff.rfl

theorem quiet_jump {top : Handle J} {rest : List (Handle J)} (hready : l.agenda.ready = [])
    (hhand : l.agenda.hand = none) (hscheduled : l.agenda.scheduled = top :: rest) :
    Quiet l (l.jump top.time) := by
  unfold jump
  split
  next hlt =>
    have hawaits : l.agenda.Awaits top.time := by
      refine ⟨hready, hhand, hlt.le, fun x hx => ?_⟩
      rw [hscheduled] at hx
      cases hx
      exact le_rfl
    exact (quiet_arrive hawaits).trans (quiet_log (show "clock_jump" ≠ "step" by decide))
  next => exact .refl l

/-- What comes before a handle is taken is quiet. -/
theorem settle_quiet (hhand : l.agenda.hand = none) :
    (∀ turn, l.settle c = .inl turn → Quiet l turn.1) ∧ ∀ l', l.settle c = .inr l' → Quiet l l' := by
  have hidle : l.tidy.agenda.hand = none :=
    (tidy_came : Came True True l.agenda l.tidy.agenda).hand.trans hhand
  have hs := settles c l
  generalize l.settle c = s at hs
  cases hs with
  | ready =>
    refine ⟨fun turn h => (nomatch h), fun l' h => ?_⟩
    cases h
    exact quiet_tidy l
  | deadlock =>
    refine ⟨fun turn h => ?_, fun l' h => (nomatch h)⟩
    cases h
    exact (quiet_tidy l).trans (quiet_log (show "deadlock" ≠ "step" by decide))
  | @due top rest deadline hready hscheduled _ hdue =>
    refine ⟨fun turn h => ?_, fun l' h => (nomatch h)⟩
    cases h
    refine (quiet_tidy l).trans (Quiet.trans ?_ (quiet_conclude _))
    rcases le_or_gt deadline l.now with hle | hlt
    · rw [max_eq_left hle, ← tidy_now l]
      exact .refl _
    · rw [max_eq_right hlt.le]
      refine quiet_arrive ⟨hready, hidle, (tidy_now l).trans_le hlt.le, fun x hx => ?_⟩
      rw [hscheduled] at hx
      cases hx
      exact (hdue.resolve_left (not_le.mpr hlt)).le
  | @jump top rest hready hscheduled _ =>
    refine ⟨fun turn h => (nomatch h), fun l' h => ?_⟩
    cases h
    exact (quiet_tidy l).trans (quiet_jump hready hidle hscheduled)

/-! ### Picking -/

theorem choose_of_picks {p : Pick R σ J κ} (hp : l.picks c = some p) :
    l.choose c = p.loop.execute c p.index p.count p.handle ∧ Quiet l p.loop ∧
      p.loop.agenda = l.agenda ∧ l.agenda.ready[p.index]? = some p.handle := by
  obtain ⟨first, rest, index, scheduler, tape, hready, hpick, rfl⟩ := picks_some hp
  refine ⟨?_, ⟨rfl, rfl, rfl, rfl, rfl, rfl, id, fun _ _ => Iff.rfl⟩, rfl, ?_⟩
  · simp only [choose, hready, hpick]
  · rw [hready]
    exact List.getElem?_eq_getElem index.isLt

theorem choose_of_none (hp : l.picks c = none) : Quiet l (l.choose c).1 := by
  cases hready : l.agenda.ready with
  | nil =>
    simp only [choose, hready]
    exact .refl l
  | cons first rest =>
    rcases hpick : c.scheduler.pick first rest l.scheduler l.tape with ⟨_ | index, scheduler, tape⟩
    · simp only [choose, hready, hpick]
      exact ⟨rfl, rfl, rfl, rfl, rfl, rfl, id, fun _ _ => Iff.rfl⟩
    · simp [picks, hready, hpick] at hp

theorem runOnce_of_none (hhand : l.agenda.hand = none) (hnext : l.nextStep c = none) :
    Quiet l (l.runOnce c).1 := by
  obtain ⟨hends, hgoes⟩ := settle_quiet (c := c) hhand
  unfold nextStep poised at hnext
  unfold runOnce
  cases hsettle : l.settle c with
  | inl turn => exact hends turn hsettle
  | inr m =>
    rw [hsettle] at hnext
    exact ((hgoes m hsettle).trans (quiet_wake m)).trans (choose_of_none hnext)

theorem runOnce_of_some (hhand : l.agenda.hand = none) {p : Pick R σ J κ}
    (hnext : l.nextStep c = some p) :
    l.runOnce c = p.loop.execute c p.index p.count p.handle ∧ Quiet l p.loop ∧
      Takeable p.loop p.index p.handle := by
  obtain ⟨_, hgoes⟩ := settle_quiet (c := c) hhand
  unfold nextStep poised at hnext
  unfold runOnce
  cases hsettle : l.settle c with
  | inl turn =>
    rw [hsettle] at hnext
    cases hnext
  | inr m =>
    rw [hsettle] at hnext
    obtain ⟨hcame, hclean⟩ := (settle_came True True hhand).2 m hsettle
    obtain ⟨hchoose, hquiet, hagenda, hget⟩ := choose_of_picks hnext
    refine ⟨hchoose, ((hgoes m hsettle).trans (quiet_wake m)).trans hquiet, ?_, ?_, ?_⟩
    · rw [hagenda]
      exact hcame.hand.trans hhand
    · rw [hagenda]
      exact hget
    · rw [hagenda]
      exact wake_clean hclean _ (List.mem_of_getElem? hget)

/-! ### Steps -/

/-- A step of the log names its true cause, and what it makes is as old as it is. -/
structure Steps (c : LoopConfig R σ J κ) (births : List Nat) (barrier : Option Nat)
    (l l' : SimLoop R σ J κ) (h : Handle J) : Prop where
  noted : Noted c (bornBy births l') barrier l'
  made : l.agenda.made ≤ l'.agenda.made
  event : ∃ e, l'.steps = l.steps ++ [e] ∧ Chronicle.TrueCause births l.stepCount h e

theorem Steps.of_quiet {m : SimLoop R σ J κ}
    (hs : Steps c births barrier m l' h) (hq : Quiet l m) : Steps c births barrier l l' h where
  noted := hs.noted
  made := hq.made ▸ hs.made
  event := by
    obtain ⟨e, hsteps, hcause⟩ := hs.event
    exact ⟨e, by rw [hsteps, hq.steps], hq.stepCount ▸ hcause⟩

theorem Steps.quiet (hs : Steps c births barrier l l' h) {l'' : SimLoop R σ J κ}
    (hq : Quiet l' l'') : Steps c births barrier l l'' h where
  noted := by
    have hborn : bornBy births l'' = bornBy births l' := by
      unfold bornBy
      rw [hq.made, hq.stepCount]
    rw [hborn]
    exact hs.noted.quiet hq
  made := hs.made.trans hq.made.ge
  event := by
    obtain ⟨e, hsteps, hcause⟩ := hs.event
    exact ⟨e, by rw [hq.steps, hsteps], hcause⟩

/-- A program whose code logs no step. -/
structure HonestCode (code : UserCode R σ J) : Prop where
  call : ∀ job, Honest (code.call job)
  collect : Honest code.collect

variable (hsame : LawfulSame c.code.same) (hcausal : c.causal = true) (hhonest : HonestCode c.code)
include hsame hcausal hhonest

theorem runHandle_notes (hn : Noted c births barrier l)
    (hapart : CodeApart c {l with agenda := l.agenda.run} (c.code.call h.call.job)) :
    Noting c births barrier l (l.runHandle c h).1 := by
  have hrun : Noted c births barrier {l with agenda := l.agenda.run} :=
    hn.quiet ⟨rfl, rfl, rfl, rfl, rfl, rfl,
      fun hd => Agenda.keeps_distinct _ .run _ trivial hd rfl, fun _ _ => Iff.rfl⟩
  obtain ⟨hnoted, hsteps, hmade⟩ := perform_notes hsame hcausal hrun (hhonest.call _) hapart
  exact ⟨hnoted, hsteps, hmade⟩

theorem collectDue_notes (hn : Noted c births barrier l)
    (hapart : c.gcInterval ≠ 0 ∧ (l.stepSeq : Int) % c.gcInterval = 0 →
      l.CodeApart c c.code.collect) : Noting c births barrier l (l.collectDue c) := by
  unfold collectDue
  split
  next hdue =>
    exact (perform_notes hsame hcausal hn hhonest.collect (hapart hdue)).quiet
      (quiet_log (show "gc_collect" ≠ "step" by decide))
  next => exact hn.noting

omit hsame hcausal hhonest in
theorem quiet_finishStep (result : SimLoop R σ J κ × Option PyException) :
    Quiet result.1 (finishStep result).1 := by
  obtain ⟨l, e⟩ := result
  cases e with
  | some e => exact .refl l
  | none =>
    have hbound : Quiet l l.bound := ⟨rfl, rfl, rfl, rfl, rfl, rfl, id, fun _ _ => Iff.rfl⟩
    unfold finishStep
    dsimp only
    split
    · exact hbound.trans (quiet_conclude _)
    · exact hbound

theorem execute_steps (hn : Noted c births barrier l) {index count : Nat}
    (ht : Takeable l index h) (hb : ∀ b ∈ barrier, h.id < b)
    (hapart : StepApart c ⟨l, index, count, h⟩) :
    Steps c births barrier l (l.execute c index count h).1 h := by
  obtain ⟨e, hsteps, hcause⟩ := takeStep_true hsame hcausal hn count ht hb
  let taken := ((l.takeStep c index count h).numberStep).countInstant
  have hcount : taken.stepCount = l.stepCount + 1 := by
    unfold stepCount
    rw [show taken.steps = l.steps ++ [e] from hsteps, List.length_append, List.length_singleton]
  have htaken : Noted c births barrier taken := by
    refine hn.take hsame hcausal ht rfl rfl hcount (fun hbar => ?_) hn.walled fun _ _ => id
    obtain ⟨hseq, _⟩ := hn.numbered hbar
    rw [hcount]
    exact ⟨congrArg (· + 1) hseq, congrArg some hseq⟩
  have hafter {l' : SimLoop R σ J κ} (h' : Noting c births barrier taken l') :
      Steps c births barrier l l' h := ⟨h'.noted, h'.made, e, h'.steps.trans hsteps, hcause⟩
  unfold execute
  dsimp only
  split
  next =>
    exact hafter (htaken.noting_quiet ⟨rfl, rfl, rfl, rfl, rfl, rfl,
      fun hd => Agenda.keeps_distinct _ .lose _ trivial hd rfl, fun _ _ => Iff.rfl⟩)
  next hlate =>
    obtain ⟨hcollect, hrun⟩ := hapart hlate
    have hcollected := collectDue_notes hsame hcausal hhonest htaken hcollect
    have hran := runHandle_notes hsame hcausal hhonest hcollected.noted hrun
    exact hafter ((hcollected.trans htaken.counted.le hran).quiet (quiet_finishStep _))

/-! ### Drains -/

omit hsame hcausal hhonest in
/-- A drain is its first step and a drain. -/
theorem drainReady_succ (limit : Nat) (l : SimLoop R σ J κ) : l.drainReady c (limit + 1) =
    match l.drainReady c 1 with
    | (l', some .drainLimit) => l'.drainReady c limit
    | turn => turn := by
  rw [drainReady, drainReady]
  dsimp only
  split
  next => rfl
  next first rest hready =>
    split
    next => rfl
    next index scheduler tape hpick =>
      split
      next => rfl
      next => rfl

omit hsame hcausal hhonest in
theorem drainReady_of_none (hnext : l.nextDrained c = none) : Quiet l (l.drainReady c 1).1 := by
  cases hready : l.agenda.compact.ready with
  | nil =>
    simp only [drainReady, hready]
    exact quiet_compact l
  | cons first rest =>
    rcases hpick : c.scheduler.pick first rest l.scheduler l.tape with ⟨_ | index, scheduler, tape⟩
    · simp only [drainReady, hready, hpick]
      exact (quiet_compact l).trans ⟨rfl, rfl, rfl, rfl, rfl, rfl, id, fun _ _ => Iff.rfl⟩
    · simp [nextDrained, picks, hready, hpick] at hnext

omit hsame hcausal hhonest in
theorem drainReady_of_some (hhand : l.agenda.hand = none) {p : Pick R σ J κ}
    (hnext : l.nextDrained c = some p) :
    Quiet (p.loop.drainStep c p.index p.count p.handle).1 (l.drainReady c 1).1 ∧
      Quiet l p.loop ∧ Takeable p.loop p.index p.handle := by
  obtain ⟨_, hquiet, hagenda, hget⟩ := choose_of_picks hnext
  have htake : Takeable p.loop p.index p.handle := by
    refine ⟨?_, ?_, ?_⟩ <;> rw [hagenda]
    · exact (compact_hand _).trans hhand
    · exact hget
    · exact compact_clean l.agenda _ (List.mem_of_getElem? hget)
  refine ⟨?_, (quiet_compact l).trans hquiet, htake⟩
  obtain ⟨first, rest, index, scheduler, tape, hready, hpick, rfl⟩ := picks_some hnext
  dsimp only at hready hpick
  simp only [drainReady, hready, hpick]
  split
  next l' e hstep =>
    rw [hstep]
    exact .refl l'
  next l' hstep =>
    rw [hstep]
    exact ⟨rfl, rfl, rfl, rfl, rfl, rfl, id, fun _ _ => Iff.rfl⟩

/-- After a step of a drain the handles made from then on are beyond a barrier. -/
theorem drainStep_steps (hn : Noted c births barrier l) {index count : Nat}
    (ht : Takeable l index h) (hb : ∀ b ∈ barrier, h.id < b)
    (hapart : DrainApart c ⟨l, index, count, h⟩) :
    Steps c births (some (barrier.getD l.agenda.made)) l (l.drainStep c index count h).1 h := by
  obtain ⟨e, hsteps, hcause⟩ := takeStep_true hsame hcausal hn count ht hb
  have hcount : (l.takeStep c index count h).stepCount = l.stepCount + 1 := by
    unfold stepCount
    rw [hsteps, List.length_append, List.length_singleton]
  have hwalled : ∀ b ∈ some (barrier.getD l.agenda.made), b ≤ l.agenda.made := by
    intro b hbar
    cases hbarrier : barrier with
    | none =>
      rw [hbarrier] at hbar
      exact (Option.some.inj hbar).ge
    | some b' =>
      rw [hbarrier] at hbar
      exact hn.walled b (hbarrier ▸ hbar)
  have htaken : Noted c births (some (barrier.getD l.agenda.made)) (l.takeStep c index count h) := by
    refine hn.take hsame hcausal ht rfl rfl hcount (fun hbar => nomatch hbar) hwalled ?_
    intro id _ hid b hbar
    rw [hbar] at hid
    exact hid b rfl
  have hran := runHandle_notes hsame hcausal hhonest htaken hapart
  exact ⟨hran.noted, hran.made, e, hran.steps.trans hsteps, hcause⟩

end Simloom.SimLoop
