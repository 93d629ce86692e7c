import Simloom.Loop.Causes

/-! What running code notes.

A handle that code makes is entered in the dictionary of causes under the step that was last,
and no live handle equals it (`Lone`). So code keeps `Noted`, and what it makes is as old as the
last step (`Noting`). -/
namespace Simloom.SimLoop
open Theory
variable {R : RandomSource} {σ J κ : Type}
variable {c : LoopConfig R σ J κ} {l l' : SimLoop R σ J κ} {h k : Handle J}
variable {births : List Nat} {barrier : Option Nat}

/-! ### Deeds -/

/-- A handle is entered under its cause and made pending. -/
structure Enters (c : LoopConfig R σ J κ) (l l' : SimLoop R σ J κ) (h : Handle J) : Prop where
  id : h.id = l.agenda.made
  causes : l'.causes = l.setCause c h ⟨l.currentStep, h.via⟩ l.causes
  currentStep : l'.currentStep = l.currentStep
  stepSeq : l'.stepSeq = l.stepSeq
  steps : l'.steps = l.steps
  made : l'.agenda.made = l.agenda.made + 1
  cancelled : l'.agenda.cancelled = l.agenda.cancelled
  distinct : l'.agenda.Distinct
  pending : ∀ k, k ∈ l'.pending ↔ k ∈ l.pending ∨ k = h

/-- No live handle that may still be run, and no live key, equals the new handle. -/
def Lone (c : LoopConfig R σ J κ) (l : SimLoop R σ J κ) (h : Handle J) : Prop :=
  ∀ k ∈ l.pending, l.agenda.isCancelled k = false → ¬Alike c h k

theorem mem_pending_lt (hd : l.agenda.Distinct) (hh : h ∈ l.pending) : h.id < l.agenda.made := by
  refine hd.made _ (List.mem_map_of_mem ?_)
  unfold pending at hh
  unfold Agenda.everywhere
  simp only [List.mem_append] at hh ⊢
  grind

namespace Noted
variable (hn : Noted c births barrier l)
include hn

theorem birth (hh : h ∈ l.pending) : ∃ birth, births[h.id]? = some birth := by
  have hlt := hn.counted ▸ mem_pending_lt hn.distinct hh
  exact ⟨births[h.id], List.getElem?_eq_getElem hlt⟩

/-- Before the first step. -/
theorem birth_zero (h0 : l.stepCount = 0) (hh : h ∈ l.pending) : births[h.id]? = some 0 := by
  obtain ⟨birth, hb⟩ := hn.birth hh
  have hle := hn.past birth (List.mem_of_getElem? hb)
  rw [h0] at hle
  rw [hb, Nat.le_zero.mp hle]

theorem cause_none (hsame : LawfulSame c.code.same) (h0 : l.stepCount = 0) {entry : Handle J × Cause}
    (he : entry ∈ l.causes) (hlive : l.agenda.isCancelled entry.1 = false) : entry.2.wokeBy = none := by
  have hpending := hn.keys entry he hlive
  obtain ⟨birth, hb, hwoke, _⟩ := hn.cause entry.1 hpending hlive (by simp [hn.fresh h0]) entry he hlive
    (alike_refl hsame _)
  rw [hn.birth_zero h0 hpending] at hb
  cases hb
  exact hwoke

/-- The handles that were there before a new one. -/
theorem birth_append (hh : h ∈ l.pending) (n : Nat) : (births ++ [n])[h.id]? = births[h.id]? := by
  rw [List.getElem?_append_left]
  exact hn.counted ▸ mem_pending_lt hn.distinct hh

/-- What an entry is right for, it stays right for. -/
theorem rightly {entry : Handle J × Cause} (hh : h ∈ l.pending) (hlive : l.agenda.isCancelled h = false)
    (hb : ∀ b ∈ barrier, h.id < b) (he : entry ∈ l.causes)
    (hlive' : l.agenda.isCancelled entry.1 = false) (halike : Alike c h entry.1) (n : Nat) :
    Rightly (births ++ [n]) h entry.2 := by
  obtain ⟨birth, hbirth, hrest⟩ := hn.cause h hh hlive hb entry he hlive' halike
  exact ⟨birth, by rw [hn.birth_append hh, hbirth], hrest⟩

theorem unmatched (hlive : l.agenda.isCancelled h = false) (hlone : Lone c l h)
    {entry : Handle J × Cause} (he : entry ∈ l.causes) : l.equalHandles c h entry.1 = false := by
  refine Bool.eq_false_iff.mpr fun heq => ?_
  obtain ⟨halike, hlive'⟩ := (equalHandles_iff hlive).mp heq
  exact hlone _ (hn.keys entry he hlive') hlive' halike

end Noted

namespace Enters
variable (he : Enters c l l' h)
include he

theorem stepCount : l'.stepCount = l.stepCount := by
  unfold SimLoop.stepCount
  rw [he.steps]

theorem isCancelled (k : Handle J) : l'.agenda.isCancelled k = l.agenda.isCancelled k := by
  unfold Agenda.isCancelled
  rw [he.cancelled]

/-- An entry after it is an old one, or was set now. -/
theorem entry {entry : Handle J × Cause} (hentry : entry ∈ l'.causes)
    (hlive : l.agenda.isCancelled entry.1 = false) : entry ∈ l.causes ∨
      entry.2 = ⟨l.currentStep, h.via⟩ ∧ l.agenda.isCancelled h = false := by
  rcases mem_setCause (he.causes ▸ hentry) with hentry | ⟨hcause, heq | ⟨heq, _⟩⟩
  · exact .inl hentry
  · exact .inr ⟨hcause, heq ▸ hlive⟩
  · exact .inr ⟨hcause, by rw [← equalHandles_cancelled heq, hlive]⟩

variable (hn : Noted c births barrier l)
include hn

theorem birth_self : (births ++ [l.stepCount])[h.id]? = some l.stepCount := by
  rw [he.id, ← hn.counted, List.getElem?_concat_length]

theorem birth_zero (h0 : l.stepCount = 0) (hk : k ∈ l'.pending) :
    (births ++ [l.stepCount])[k.id]? = some 0 := by
  rcases (he.pending k).mp hk with hk | rfl
  · rw [hn.birth_append hk, hn.birth_zero h0 hk]
  · rw [he.birth_self hn, h0]

theorem keys : ∀ entry ∈ l'.causes, l.agenda.isCancelled entry.1 = false →
    entry.1 ∈ l'.pending := by
  intro entry hentry hlive
  have hold (hkey : entry.1 ∈ l.causes.map Prod.fst) : entry.1 ∈ l.pending := by
    obtain ⟨e, hmem, heq⟩ := List.mem_map.mp hkey
    exact heq ▸ hn.keys e hmem (heq ▸ hlive)
  have hkey : entry.1 ∈ l'.causes.map Prod.fst := List.mem_map_of_mem hentry
  rw [he.causes] at hkey
  rw [he.pending]
  rcases setCause_keys (c := c) (l := l) (h := h) ⟨l.currentStep, h.via⟩ l.causes with
    ⟨_, hkeys⟩ | ⟨_, hset⟩
  · rw [hkeys] at hkey
    exact .inl (hold hkey)
  · rw [hset, List.map_append, List.mem_append] at hkey
    rcases hkey with hkey | hkey
    · exact .inl (hold hkey)
    · exact .inr (List.mem_singleton.mp hkey)

theorem apart : (l'.causes.map Prod.fst).Pairwise fun h k => l.agenda.isCancelled h = false →
    l.agenda.isCancelled k = false → ¬Alike c k h := by
  rw [he.causes]
  rcases setCause_keys (c := c) (l := l) (h := h) ⟨l.currentStep, h.via⟩ l.causes with
    ⟨_, hkeys⟩ | ⟨hnone, hset⟩
  · rw [hkeys]
    exact hn.apart
  · rw [hset, List.map_append]
    refine List.pairwise_append.mpr ⟨hn.apart, List.pairwise_singleton _ _, ?_⟩
    intro k hk k' hk' hlive hlive' halike
    obtain rfl : k' = h := List.mem_singleton.mp hk'
    obtain ⟨e, hmem, rfl⟩ := List.mem_map.mp hk
    have heq := (equalHandles_iff hlive').mpr ⟨halike, hlive⟩
    rw [hnone e hmem] at heq
    cases heq

/-- Its own entry is right for the new handle. -/
theorem cause_new (hb : ∀ b ∈ barrier, h.id < b) :
    Rightly (births ++ [l.stepCount]) h ⟨l.currentStep, h.via⟩ := by
  refine ⟨l.stepCount, he.birth_self hn, ?_, fun _ => rfl⟩
  have hbarrier : barrier = none := by
    cases hbar : barrier with
    | none => rfl
    | some b =>
      have hlt := hb b hbar
      rw [he.id] at hlt
      exact absurd hlt (Nat.not_lt.mpr (hn.walled b hbar))
  exact (hn.numbered hbarrier).2

variable (hlone : l.agenda.isCancelled h = false → l.stepCount ≠ 0 → Lone c l h)
include hlone

/-- Once there was a step, a live handle gets an entry of its own. -/
theorem appended (hlive : l.agenda.isCancelled h = false) (h0 : l.stepCount ≠ 0) :
    l'.causes = l.causes ++ [(h, ⟨l.currentStep, h.via⟩)] := by
  rw [he.causes]
  rcases setCause_keys (c := c) (l := l) (h := h) ⟨l.currentStep, h.via⟩ l.causes with
    ⟨⟨entry, hentry, heq⟩, _⟩ | ⟨_, hset⟩
  · rw [hn.unmatched hlive (hlone hlive h0) hentry] at heq
    cases heq
  · exact hset

theorem own (hk : k ∈ l'.pending) (hlive : l.agenda.isCancelled k = false)
    (hbirth : (births ++ [l.stepCount])[k.id]? ≠ some 0) : ∃ entry ∈ l'.causes, entry.1 = k := by
  have h0 : l.stepCount ≠ 0 := fun h0 => hbirth (he.birth_zero hn h0 hk)
  rcases (he.pending k).mp hk with hk | rfl
  · rw [hn.birth_append hk] at hbirth
    obtain ⟨entry, hentry, hkey⟩ := hn.own k hk hlive hbirth
    rcases mem_setCause_of_mem (c := c) (l := l) (h := h) ⟨l.currentStep, h.via⟩ hentry with
      hset | heq
    · exact ⟨entry, he.causes ▸ hset, hkey⟩
    · have hh : l.agenda.isCancelled h = false := by
        rw [← equalHandles_cancelled heq, hkey, hlive]
      rw [hn.unmatched hh (hlone hh h0) hentry] at heq
      cases heq
  · exact ⟨_, he.appended hn hlone hlive h0 ▸ List.mem_append_right _ List.mem_cons_self, rfl⟩

variable (hsame : LawfulSame c.code.same)
include hsame

theorem unlike {k' : Handle J} (hk : k ∈ l'.pending) (hk' : k' ∈ l'.pending)
    (hlive : l.agenda.isCancelled k = false) (hlive' : l.agenda.isCancelled k' = false)
    (hid : k.id ≠ k'.id) (halike : Alike c k k') :
    (births ++ [l.stepCount])[k.id]? = some 0 ∧ (births ++ [l.stepCount])[k'.id]? = some 0 := by
  by_cases h0 : l.stepCount = 0
  · exact ⟨he.birth_zero hn h0 hk, he.birth_zero hn h0 hk'⟩
  · rcases (he.pending k).mp hk with hk | rfl <;> rcases (he.pending k').mp hk' with hk' | rfl
    · rw [hn.birth_append hk, hn.birth_append hk']
      exact hn.unlike k hk k' hk' hlive hlive' hid halike
    · exact absurd (halike.symm hsame) (hlone hlive' h0 k hk hlive)
    · exact absurd halike (hlone hlive h0 k' hk' hlive')
    · exact absurd rfl hid

theorem cause {entry : Handle J × Cause} (hk : k ∈ l'.pending)
    (hlive : l.agenda.isCancelled k = false) (hb : ∀ b ∈ barrier, k.id < b)
    (hentry : entry ∈ l'.causes) (hlive' : l.agenda.isCancelled entry.1 = false)
    (halike : Alike c k entry.1) : Rightly (births ++ [l.stepCount]) k entry.2 := by
  by_cases h0 : l.stepCount = 0
  · refine ⟨0, he.birth_zero hn h0 hk, ?_, fun h => absurd rfl h⟩
    rcases he.entry hentry hlive' with hentry | ⟨hcause, _⟩
    · exact hn.cause_none hsame h0 hentry hlive'
    · rw [hcause, (hn.numbered (hn.fresh h0)).2, h0]
  · by_cases hh : l.agenda.isCancelled h = false
    · rw [he.appended hn hlone hh h0, List.mem_append, List.mem_singleton] at hentry
      rcases hentry with hentry | rfl <;> rcases (he.pending k).mp hk with hk | rfl
      · exact hn.rightly hk hlive hb hentry hlive' halike _
      · have heq := (equalHandles_iff hlive).mpr ⟨halike, hlive'⟩
        rw [hn.unmatched hh (hlone hh h0) hentry] at heq
        cases heq
      · exact absurd (halike.symm hsame) (hlone hh h0 k hk hlive)
      · exact he.cause_new hn hb
    · have hentry := (he.entry hentry hlive').resolve_right fun h => hh h.2
      rcases (he.pending k).mp hk with hk | rfl
      · exact hn.rightly hk hlive hb hentry hlive' halike _
      · exact absurd hlive hh

end Enters

theorem Noted.enter (hsame : LawfulSame c.code.same) (hn : Noted c births barrier l)
    (he : Enters c l l' h)
    (hlone : l.agenda.isCancelled h = false → l.stepCount ≠ 0 → Lone c l h) :
    Noted c (births ++ [l.stepCount]) barrier l' where
  counted := by rw [List.length_append, List.length_singleton, hn.counted, he.made]
  past birth hb := by
    rw [he.stepCount]
    rcases List.mem_append.mp hb with hb | hb
    · exact hn.past birth hb
    · exact (List.mem_singleton.mp hb).le
  distinct := he.distinct
  numbered := by
    rw [he.stepSeq, he.currentStep, he.stepCount]
    exact hn.numbered
  fresh := by
    rw [he.stepCount]
    exact hn.fresh
  walled b hb := by
    rw [he.made]
    exact Nat.le_succ_of_le (hn.walled b hb)
  keys entry hentry hlive := he.keys hn entry hentry (he.isCancelled _ ▸ hlive)
  apart := by
    simp only [he.isCancelled]
    exact he.apart hn
  unlike k hk k' hk' hlive hlive' hid halike := by
    rw [he.isCancelled] at hlive hlive'
    exact he.unlike hn hlone hsame hk hk' hlive hlive' hid halike
  cause k hk hlive hb entry hentry hlive' halike := by
    rw [he.isCancelled] at hlive hlive'
    exact he.cause hn hlone hsame hk hlive hb hentry hlive' halike
  own k hk hlive hbirth := by
    rw [he.isCancelled] at hlive
    exact he.own hn hlone hk hlive hbirth

theorem Noted.cancel (hn : Noted c births barrier l) (id : HandleId) :
    Noted c births barrier {l with agenda := l.agenda.cancel id} := by
  have hcancelled {k : Handle J} (hlive : (l.agenda.cancel id).isCancelled k = false) :
      l.agenda.isCancelled k = false := by
    refine Bool.eq_false_iff.mpr fun hdead => Bool.eq_false_iff.mp hlive ?_
    exact Agenda.isCancelled_iff.mpr (List.mem_cons_of_mem _ (Agenda.isCancelled_iff.mp hdead))
  exact { hn with
    distinct := Agenda.keeps_distinct _ (.cancel id) _ trivial hn.distinct rfl
    keys := fun entry he hlive => hn.keys entry he (hcancelled hlive)
    apart := hn.apart.imp fun h hlive hlive' => h (hcancelled hlive) (hcancelled hlive')
    unlike := fun h hh k hk hlive hlive' =>
      hn.unlike h hh k hk (hcancelled hlive) (hcancelled hlive')
    cause := fun h hh hlive hb entry he hlive' =>
      hn.cause h hh (hcancelled hlive) hb entry he (hcancelled hlive')
    own := fun h hh hlive => hn.own h hh (hcancelled hlive) }

/-- The births of the handles up to now. -/
def bornBy (births : List Nat) (l : SimLoop R σ J κ) : List Nat :=
  births ++ List.replicate (l.agenda.made - births.length) l.stepCount

theorem Noted.bornBy_eq (hn : Noted c births barrier l) : bornBy births l = births := by
  unfold bornBy
  rw [hn.counted, Nat.sub_self]
  exact List.append_nil _

theorem enters_bornBy (hn : Noted c births barrier l) (he : Enters c l l' h) :
    bornBy births l' = births ++ [l.stepCount] := by
  unfold bornBy SimLoop.stepCount
  rw [hn.counted, he.made, he.steps, Nat.add_sub_cancel_left]
  rfl

/-- Handles that are made in two goes within a step. -/
theorem bornBy_bornBy {l'' : SimLoop R σ J κ} (hle : births.length ≤ l'.agenda.made)
    (hle' : l'.agenda.made ≤ l''.agenda.made) (hsteps : l''.stepCount = l'.stepCount) :
    bornBy (bornBy births l') l'' = bornBy births l'' := by
  unfold bornBy
  rw [List.length_append, List.length_replicate, List.append_assoc, hsteps, ← List.replicate_add]
  congr 2
  omega

/-- What running code makes is as old as the last step. -/
structure Noting (c : LoopConfig R σ J κ) (births : List Nat) (barrier : Option Nat)
    (l l' : SimLoop R σ J κ) : Prop where
  noted : Noted c (bornBy births l') barrier l'
  steps : l'.steps = l.steps
  made : l.agenda.made ≤ l'.agenda.made

theorem Noting.stepCount (h : Noting c births barrier l l') : l'.stepCount = l.stepCount := by
  unfold SimLoop.stepCount
  rw [h.steps]

theorem Noted.noting (hn : Noted c births barrier l) : Noting c births barrier l l :=
  ⟨by rwa [hn.bornBy_eq], rfl, le_rfl⟩

theorem Noting.trans {l'' : SimLoop R σ J κ} (hn : births.length ≤ l.agenda.made)
    (h : Noting c births barrier l l') (h' : Noting c (bornBy births l') barrier l' l'') :
    Noting c births barrier l l'' where
  noted := by
    have := h'.noted
    rwa [bornBy_bornBy (hn.trans h.made) h'.made h'.stepCount] at this
  steps := h'.steps.trans h.steps
  made := h.made.trans h'.made

theorem Noting.quiet (h : Noting c births barrier l l') {l'' : SimLoop R σ J κ} (hq : Quiet l' l'') :
    Noting c births barrier l l'' where
  noted := by
    have hborn : bornBy births l'' = bornBy births l' := by
      unfold bornBy
      rw [hq.made, hq.stepCount]
    rw [hborn]
    exact h.noted.quiet hq
  steps := hq.steps.trans h.steps
  made := h.made.trans hq.made.ge

theorem Noted.noting_quiet (hn : Noted c births barrier l) (hq : Quiet l l') :
    Noting c births barrier l l' := hn.noting.quiet hq

/-- The code logs no step of its own. -/
def Honest (code : Code R σ J) : Prop :=
  ∀ user time id tape, ∀ d ∈ (code user time id tape).deeds, ∀ e, d = .emit e → e.kind ≠ "step"

variable (hsame : LawfulSame c.code.same) (hcausal : c.causal = true)
include hsame hcausal

omit hsame in
/-- A handle that is noted is entered, however the agenda takes it up. -/
theorem enters_note {agenda : Agenda J} (hid : h.id = l.agenda.made)
    (hmade : agenda.made = l.agenda.made + 1) (hcancelled : agenda.cancelled = l.agenda.cancelled)
    (hdistinct : agenda.Distinct)
    (hpending : ∀ k, k ∈ agenda.ready ++ agenda.scheduled ++ agenda.parked ↔ k ∈ l.pending ∨ k = h) :
    Enters c l {l.noteCause c h h.via with agenda := agenda} h where
  id := hid
  causes := by simp [noteCause, hcausal]
  currentStep := by simp [noteCause, hcausal]
  stepSeq := by simp [noteCause, hcausal]
  steps := by simp [noteCause, hcausal, steps]
  made := hmade
  cancelled := hcancelled
  distinct := hdistinct
  pending := hpending

omit hsame in
theorem enters_callSoon (hd : l.agenda.Distinct) (call : Callable J) :
    Enters c l (l.deed c (.callSoon call)) (l.agenda.next call none) := by
  refine enters_note hcausal rfl rfl rfl
    (Agenda.keeps_distinct _ (.callSoon call) _ trivial hd rfl) fun k => ?_
  simp [pending, Agenda.callSoon, Agenda.withhold]
  grind

omit hsame in
theorem enters_callAt (hd : l.agenda.Distinct) (time : ℚ) (call : Callable J) :
    Enters c l (l.deed c (.callAt time call)) (l.agenda.next call (some time)) := by
  refine enters_note hcausal rfl rfl rfl
    (Agenda.keeps_distinct _ (.callAt time call) _ trivial hd rfl) fun k => ?_
  have hpush :=
    (Agenda.push_perm (l.agenda.next call (some time)) l.agenda.scheduled).mem_iff (a := k)
  simp only [pending, Agenda.callAt, List.mem_append, hpush, List.mem_cons]
  grind

theorem callSoon_notes (hn : Noted c births barrier l) (call : Callable J) :
    Noting c births barrier l (l.deed c (.callSoon call)) := by
  have he := enters_callSoon hcausal hn.distinct call
  refine ⟨?_, ?_, ?_⟩
  · rw [enters_bornBy hn he]
    refine hn.enter hsame he fun _ _ k hk _ halike => ?_
    have hlt := mem_pending_lt hn.distinct hk
    exact absurd (show l.agenda.made = k.id from halike) (Nat.ne_of_gt hlt)
  · exact he.steps
  · exact Nat.le_succ _

theorem callAt_notes (hn : Noted c births barrier l) {time : ℚ} {call : Callable J}
    (hapart : l.NoTwin c (l.agenda.next call (some time))) :
    Noting c births barrier l (l.deed c (.callAt time call)) := by
  have he := enters_callAt hcausal hn.distinct time call
  refine ⟨?_, ?_, ?_⟩
  · rw [enters_bornBy hn he]
    refine hn.enter hsame he fun hlive h0 k hk hlive' halike => ?_
    have heq := (equalHandles_iff hlive).mpr ⟨halike, hlive'⟩
    rw [hapart.resolve_left h0 k hk] at heq
    cases heq
  · exact he.steps
  · exact Nat.le_succ _

theorem deed_notes (hn : Noted c births barrier l) {d : Deed σ J}
    (hhonest : ∀ e, d = .emit e → e.kind ≠ "step") (hapart : l.DeedApart c d) :
    Noting c births barrier l (l.deed c d) := by
  cases d with
  | callSoon call => exact callSoon_notes hsame hcausal hn call
  | callAt time call => exact callAt_notes hsame hcausal hn hapart
  | cancel id =>
    refine ⟨?_, rfl, le_rfl⟩
    have hcancel := hn.cancel id
    rwa [show bornBy births (l.deed c (.cancel id)) = births from hn.bornBy_eq]
  | crashTasks tasks =>
    exact hn.noting_quiet ⟨rfl, rfl, rfl, rfl, rfl, rfl,
      fun hd => Agenda.keeps_distinct _ (.crashTasks tasks) _ trivial hd rfl, fun _ _ => Iff.rfl⟩
  | stop => exact hn.noting_quiet ⟨rfl, rfl, rfl, rfl, rfl, rfl, id, fun _ _ => Iff.rfl⟩
  | emit e =>
    refine hn.noting_quiet ⟨rfl, rfl, rfl, ?_, rfl, rfl, id, fun _ _ => Iff.rfl⟩
    have hkind := hhonest e rfl
    simp [steps, deed, hkind]
  | always label predicate => exact hn.noting_quiet ⟨rfl, rfl, rfl, rfl, rfl, rfl, id, fun _ _ => Iff.rfl⟩
  | eventually label predicate within =>
    exact hn.noting_quiet ⟨rfl, rfl, rfl, rfl, rfl, rfl, id, fun _ _ => Iff.rfl⟩
  | leadsTo label trigger response within =>
    exact hn.noting_quiet ⟨rfl, rfl, rfl, rfl, rfl, rfl, id, fun _ _ => Iff.rfl⟩

theorem deeds_note {ds : List (Deed σ J)} (hn : Noted c births barrier l)
    (hhonest : ∀ d ∈ ds, ∀ e, d = .emit e → e.kind ≠ "step") (hapart : DeedsApart c l ds) :
    Noting c births barrier l (ds.foldl (fun l d => l.deed c d) l) := by
  induction ds generalizing births l with
  | nil => exact hn.noting
  | cons d rest ih =>
    have hd := deed_notes hsame hcausal hn (hhonest d List.mem_cons_self) hapart.1
    exact hd.trans hn.counted.le
      (ih hd.noted (fun d hd => hhonest d (List.mem_cons_of_mem _ hd)) hapart.2)

theorem perform_notes {code : Code R σ J} (hn : Noted c births barrier l) (hhonest : Honest code)
    (hapart : l.CodeApart c code) : Noting c births barrier l (l.perform c code).1 := by
  have huser : Noted c births barrier {l with
      user := (code l.user l.now l.agenda.made l.tape).state
      tape := (code l.user l.now l.agenda.made l.tape).tape} :=
    hn.quiet ⟨rfl, rfl, rfl, rfl, rfl, rfl, id, fun _ _ => Iff.rfl⟩
  obtain ⟨hnoted, hsteps, hmade⟩ := deeds_note hsame hcausal huser (hhonest _ _ _ _) hapart
  exact ⟨hnoted, hsteps, hmade⟩

omit hsame in
theorem causeFields_causes (h : Handle J) : (l.causeFields c h).2 =
    l.causes.eraseP fun entry => l.equalHandles c h entry.1 := by
  unfold causeFields
  rw [if_pos hcausal]
  cases hfind : l.causes.find? fun entry => l.equalHandles c h entry.1 with
  | none =>
    refine (List.eraseP_of_forall_not fun entry he => ?_).symm
    exact List.find?_eq_none.mp hfind entry he
  | some entry => rfl

end Simloom.SimLoop
