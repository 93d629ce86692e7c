import Simloom.Loop.Runs
import Simloom.Tape.Replay

/-! The canonical schedule runs the oldest.

On a tape that answers 0 for good the default strategy takes the first of the ready handles,
in a step as in a drain. Then what was called soon runs in the order in which it was called,
and timers of one time in the order in which they were set: handles keep to one line, in
which they go from the heap to the ready list, to the step and to what ran. Only what a crash
parked comes back out of line. -/
namespace Simloom
open Theory
variable {R : RandomSource} {σ J : Type}

/-! ### The line -/

namespace Agenda
variable {a : Agenda J}

/-- What ran, what is run, what may be run, and the timers. -/
def line (a : Agenda J) : List (Handle J) :=
  a.ran.map Ran.handle ++ a.hand.toList ++ a.ready ++ a.scheduled

/-- No older handle of the same kind, called soon or for one time, comes later. -/
def Behind (h k : Handle J) : Prop := h.timer = k.timer → h.id < k.id

/-- The handles in a list that no crash parked. -/
def spared (a : Agenda J) (hs : List (Handle J)) : List (Handle J) := hs.filter fun h => h.id ∉ a.shelved

structure Lined (a : Agenda J) : Prop where
  order : (a.spared a.line).Pairwise Behind
  made : ∀ h ∈ a.line ++ a.parked, h.id < a.made
  timed : ∀ h ∈ a.scheduled, h.timer.isSome
  sorted : a.scheduled.Pairwise fun h k => h.time ≤ k.time
  parked : ∀ h ∈ a.parked, h.id ∈ a.shelved

theorem lined_start (epoch : ℚ) : (start epoch : Agenda J).Lined where
  order := .nil
  made := fun _ h => absurd h List.not_mem_nil
  timed := fun _ h => absurd h List.not_mem_nil
  sorted := .nil
  parked := fun _ h => absurd h List.not_mem_nil

theorem pairwise_insert {α : Type} {r : α → α → Prop} {xs ys : List α} {n : α}
    (h : (xs ++ ys).Pairwise r) (hxs : ∀ x ∈ xs, r x n) (hys : ∀ y ∈ ys, r n y) :
    (xs ++ n :: ys).Pairwise r := by
  obtain ⟨hleft, hright, hacross⟩ := List.pairwise_append.mp h
  refine List.pairwise_append.mpr ⟨hleft, List.pairwise_cons.mpr ⟨hys, hright⟩, fun x hx y hy => ?_⟩
  rcases List.mem_cons.mp hy with rfl | hy
  · exact hxs x hx
  · exact hacross x hx y hy

/-- A handle that was just made joins the line where no timer of its time comes after it. -/
theorem order_insert (hl : a.Lined) {before after : List (Handle J)} {n : Handle J}
    (hline : a.line = before ++ after) (hid : n.id = a.made) (hafter : ∀ k ∈ after, n.timer ≠ k.timer) :
    (a.spared (before ++ n :: after)).Pairwise Behind := by
  have horder := hl.order
  have hmade : ∀ h ∈ before, h.id < a.made := fun h hin => by
    apply hl.made h
    rw [hline]
    exact List.mem_append_left _ (List.mem_append_left _ hin)
  unfold spared at horder ⊢
  rw [hline, List.filter_append] at horder
  rw [List.filter_append, List.filter_cons]
  split
  · apply pairwise_insert horder
    · intro h hin _
      rw [hid]
      exact hmade h (List.mem_filter.mp hin).1
    · intro k hin htimer
      exact absurd htimer (hafter k (List.mem_filter.mp hin).1)
  · exact horder

/-- Where the heap takes a timer in. -/
theorem push_split (n : Handle J) {hs : List (Handle J)} (hsorted : hs.Pairwise fun h k => h.time ≤ k.time) :
    ∃ before after, hs = before ++ after ∧ push n hs = before ++ n :: after ∧
      ∀ k ∈ after, n.time < k.time := by
  induction hs with
  | nil => exact ⟨[], [], rfl, rfl, fun _ h => absurd h List.not_mem_nil⟩
  | cons top rest ih =>
    obtain ⟨htop, hrest⟩ := List.pairwise_cons.mp hsorted
    unfold push
    split
    · obtain ⟨before, after, heq, hpush, hlater⟩ := ih hrest
      exact ⟨top :: before, after, by rw [heq]; rfl, by rw [hpush]; rfl, hlater⟩
    · next hlt =>
      refine ⟨[], top :: rest, rfl, rfl, fun k hk => ?_⟩
      rcases List.mem_cons.mp hk with rfl | hk
      · exact not_le.mp hlt
      · exact (not_le.mp hlt).trans_le (htop k hk)

theorem Lined.callSoon (hl : a.Lined) (call : Callable J) : (a.callSoon call).Lined where
  order := by
    show (a.spared (a.ran.map Ran.handle ++ a.hand.toList ++ (a.ready ++ [a.next call none]) ++
      a.scheduled)).Pairwise Behind
    rw [← List.append_assoc, List.append_assoc _ [_], List.singleton_append]
    apply order_insert hl rfl rfl
    intro k hk htimer
    have htimed := hl.timed k hk
    rw [← htimer] at htimed
    cases htimed
  made := fun h hin => by
    have hmem : h ∈ a.line ++ a.parked ∨ h = a.next call none := by
      simp only [line, Agenda.callSoon, withhold, List.mem_append, List.mem_singleton] at hin ⊢
      grind
    rcases hmem with hmem | rfl
    · exact Nat.lt_succ_of_lt (hl.made h hmem)
    · exact Nat.lt_succ_self _
  timed := hl.timed
  sorted := hl.sorted
  parked := hl.parked

theorem Lined.callAt (hl : a.Lined) (time : ℚ) (call : Callable J) : (a.callAt time call).Lined where
  order := by
    obtain ⟨before, after, heq, hpush, hlater⟩ := push_split (a.next call (some time)) hl.sorted
    show (a.spared (a.ran.map Ran.handle ++ a.hand.toList ++ a.ready ++
      push (a.next call (some time)) a.scheduled)).Pairwise Behind
    rw [hpush, ← List.append_assoc]
    apply order_insert hl _ rfl
    · intro k hk htimer
      have hlt := hlater k hk
      unfold Handle.time at hlt
      rw [← htimer] at hlt
      exact lt_irrefl _ hlt
    · rw [List.append_assoc, ← heq]
      rfl
  made := fun h hin => by
    have hmem : h ∈ a.line ++ a.parked ∨ h = a.next call (some time) := by
      simp only [line, Agenda.callAt, List.mem_append, mem_push] at hin ⊢
      grind
    rcases hmem with hmem | rfl
    · exact Nat.lt_succ_of_lt (hl.made h hmem)
    · exact Nat.lt_succ_self _
  timed := fun h hin => by
    rcases mem_push.mp hin with rfl | hin
    · rfl
    · exact hl.timed h hin
  sorted := sorted_push _ hl.sorted
  parked := hl.parked

/-- Nothing overtakes where handles leave the line. -/
theorem Lined.thin {a' : Agenda J} (hl : a.Lined) (hline : a'.line.Sublist a.line)
    (hscheduled : a'.scheduled.Sublist a.scheduled) (hmade : a'.made = a.made)
    (hshelved : a.shelved ⊆ a'.shelved)
    (hparked : ∀ h ∈ a'.parked, h ∈ a.parked ∨ h ∈ a.line ∧ h.id ∈ a'.shelved) : a'.Lined where
  order := by
    refine List.Pairwise.sublist ?_ hl.order
    refine List.Sublist.trans ?_ (hline.filter fun h => h.id ∉ a.shelved)
    apply List.monotone_filter_right
    intro h hin
    simp only [decide_eq_true_eq] at hin ⊢
    exact fun hold => hin (hshelved hold)
  made := fun h hin => by
    rw [hmade]
    apply hl.made h
    rcases List.mem_append.mp hin with hin | hin
    · exact List.mem_append_left _ (hline.subset hin)
    · rcases hparked h hin with hin | ⟨hin, -⟩
      · exact List.mem_append_right _ hin
      · exact List.mem_append_left _ hin
  timed := fun h hin => hl.timed h (hscheduled.subset hin)
  sorted := hl.sorted.sublist hscheduled
  parked := fun h hin => by
    rcases hparked h hin with hin | ⟨-, hin⟩
    · exact hshelved (hl.parked h hin)
    · exact hin

theorem Lined.same {a' : Agenda J} (hl : a.Lined) (hline : a'.line = a.line)
    (hscheduled : a'.scheduled = a.scheduled) (hmade : a'.made = a.made)
    (hshelved : a'.shelved = a.shelved) (hparked : a'.parked = a.parked) : a'.Lined :=
  hl.thin (hline ▸ .refl _) (hscheduled ▸ .refl _) hmade (hshelved ▸ fun _ h => h)
    fun _ hin => .inl (hparked ▸ hin)

theorem Lined.compactReady (hl : a.Lined) : a.compactReady.Lined := by
  apply hl.thin
  · exact ((List.Sublist.refl _).append List.filter_sublist).append (.refl _)
  · exact .refl _
  · rfl
  · exact List.subset_append_left _ _
  · intro h hin
    refine (List.mem_append.mp hin).imp_right fun hin => ⟨?_, ?_⟩
    · simp only [line, List.mem_append]
      exact .inl (.inr (List.mem_filter.mp hin).1)
    · exact List.mem_append_right _ (List.mem_map_of_mem hin)

theorem Lined.compact (hl : a.Lined) : a.compact.Lined := by
  unfold Agenda.compact
  split
  · exact hl.compactReady
  · exact hl

theorem Lined.dropTops (hl : a.Lined) : a.dropTops.Lined := by
  have hdrop : a.dropTops.scheduled.Sublist a.scheduled := List.dropWhile_sublist _
  exact hl.thin ((List.Sublist.refl _).append hdrop) hdrop rfl (fun _ h => h) fun _ hin => .inl hin

/-- Due timers go on in line. -/
theorem Lined.wake (hl : a.Lined) : a.wake.Lined := by
  have hsplit : a.dueTimers ++ (a.scheduled.dropWhile fun h => h.time ≤ a.now) = a.scheduled :=
    List.takeWhile_append_dropWhile
  have hline : a.line = a.ran.map Ran.handle ++ a.hand.toList ++ a.ready ++
      (a.dueTimers ++ a.scheduled.dropWhile fun h => h.time ≤ a.now) := by rw [hsplit, line]
  apply hl.thin
  · rw [hline, ← List.append_assoc]
    refine List.Sublist.append ?_ (.refl _)
    show (a.ran.map Ran.handle ++ a.hand.toList ++ (a.ready ++ _)).Sublist _
    rw [← List.append_assoc]
    exact (List.Sublist.refl _).append List.filter_sublist
  · exact List.dropWhile_sublist _
  · rfl
  · exact List.subset_append_left _ _
  · intro h hin
    refine (List.mem_append.mp hin).imp_right fun hin => ⟨?_, ?_⟩
    · rw [hline]
      simp only [List.mem_append]
      exact .inr (.inl (List.mem_filter.mp hin).1)
    · exact List.mem_append_right _ (List.mem_map_of_mem hin)

/-- The first of the ready handles is taken. -/
theorem Lined.take (hl : a.Lined) (hhand : a.hand = none) : (a.take 0).Lined := by
  refine hl.same ?_ rfl rfl rfl rfl
  unfold line Agenda.take
  rw [hhand]
  cases a.ready <;> simp

theorem Lined.run (hl : a.Lined) : a.run.Lined :=
  hl.same (by simp [line, Agenda.run, Function.comp_def]) rfl rfl rfl rfl

theorem Lined.lose (hl : a.Lined) : a.lose.Lined := by
  refine hl.thin ?_ (.refl _) rfl (fun _ h => h) fun _ hin => .inl hin
  refine List.Sublist.append (List.Sublist.append ?_ (.refl _)) (.refl _)
  exact (List.Sublist.refl _).append (List.nil_sublist _)

/-- What comes back was parked. -/
theorem Lined.reviveCrashed (hl : a.Lined) : a.reviveCrashed.Lined where
  order := by
    have hparked : a.spared a.parked = [] :=
      List.filter_eq_nil_iff.mpr fun h hin => by simp [hl.parked h hin]
    have horder := hl.order
    show (a.spared (a.ran.map Ran.handle ++ a.hand.toList ++ (a.ready ++ a.parked) ++
      a.scheduled)).Pairwise Behind
    unfold spared line at horder
    unfold spared at hparked ⊢
    simp only [List.filter_append] at horder ⊢
    rw [hparked, List.append_nil]
    exact horder
  made := fun h hin => by
    apply hl.made h
    simp only [line, Agenda.reviveCrashed, List.mem_append] at hin ⊢
    grind
  timed := hl.timed
  sorted := hl.sorted
  parked := fun _ h => absurd h List.not_mem_nil

end Agenda

/-! ### The loop -/

namespace SimLoop
variable {c : LoopConfig R σ J Unit} {l l' : SimLoop R σ J Unit}

/-- Code that does no more with a tape than draw leaves one that answers 0 so. -/
def OnlyDraws (code : Code R σ J) : Prop :=
  ∀ user time id (t : Tape R), t.Zeroing → (code user time id t).tape.Zeroing

/-- A program whose code only draws. -/
structure DrawingCode (code : UserCode R σ J) : Prop where
  call : ∀ job, OnlyDraws (code.call job)
  collect : OnlyDraws code.collect

def DrawingDrive : Drive R σ J → Prop
  | .outside code => OnlyDraws code
  | _ => True

/-- The tape answers 0 for good, and handles keep to their line. -/
structure Canonical (l : SimLoop R σ J Unit) : Prop where
  zeroing : l.tape.Zeroing
  lined : l.agenda.Lined

/-- The default strategy takes the first handle. -/
theorem randomWalk_zero {t : Tape R} (hz : t.Zeroing) (first : Handle J) (rest : List (Handle J)) :
    ∃ index t', (randomWalk : Scheduler R J Unit).pick first rest () t = (.ok index, (), t') ∧
      index.val = 0 ∧ t'.Zeroing := by
  unfold randomWalk
  dsimp only
  split
  · exact ⟨0, t, rfl, rfl, hz⟩
  · obtain ⟨t', hdraw, hz'⟩ := hz.draw "sched.pick" (Nat.succ_pos rest.length)
    exact ⟨0, t', by rw [hdraw]; rfl, rfl, hz'⟩

theorem Canonical.agenda (hc : l.Canonical) (htape : l'.tape = l.tape) (hlined : l'.agenda.Lined) :
    l'.Canonical := ⟨htape ▸ hc.zeroing, hlined⟩

theorem Canonical.same (hc : l.Canonical) (htape : l'.tape = l.tape) (hagenda : l'.agenda = l.agenda) :
    l'.Canonical := hc.agenda htape (hagenda ▸ hc.lined)

theorem Canonical.deed (hc : l.Canonical) (d : Deed σ J) : (l.deed c d).Canonical := by
  have hnote : ∀ (h : Handle J) (via : String), (l.noteCause c h via).tape = l.tape := by
    intro h via
    unfold noteCause
    split <;> rfl
  cases d with
  | callSoon call => exact hc.agenda (hnote _ _) (hc.lined.callSoon call)
  | callAt time call => exact hc.agenda (hnote _ _) (hc.lined.callAt time call)
  | cancel id => exact hc.agenda rfl (hc.lined.same rfl rfl rfl rfl rfl)
  | crashTasks tasks => exact hc.agenda rfl (hc.lined.same rfl rfl rfl rfl rfl)
  | _ => exact hc.same rfl rfl

theorem Canonical.perform (hc : l.Canonical) {code : Code R σ J} (hdraws : OnlyDraws code) :
    (l.perform c code).1.Canonical := by
  have hdeeds : ∀ (ds : List (Deed σ J)) (m : SimLoop R σ J Unit), m.Canonical →
      (ds.foldl (fun l d => l.deed c d) m).Canonical := by
    intro ds
    induction ds with
    | nil => exact fun _ hm => hm
    | cons d rest ih => exact fun m hm => ih _ (hm.deed d)
  exact hdeeds _ _ ⟨hdraws _ _ _ _ hc.zeroing, hc.lined⟩

theorem Canonical.conclude (hc : l.Canonical) (verdict : MonitorSet σ × Option Violation) :
    (l.conclude verdict).1.Canonical := by
  obtain ⟨ms, v⟩ := verdict
  cases v <;> exact hc.same rfl rfl

theorem Canonical.arrive (hc : l.Canonical) (time : ℚ) : (l.arrive time).Canonical :=
  hc.agenda rfl (hc.lined.same rfl rfl rfl rfl rfl)

theorem Canonical.settle (hc : l.Canonical) : (∀ turn, l.settle c = .inl turn → turn.1.Canonical) ∧
    ∀ m, l.settle c = .inr m → m.Canonical := by
  have htidy : l.tidy.Canonical := hc.agenda rfl hc.lined.dropTops.compact
  have hs := settles c l
  generalize l.settle c = s at hs
  cases hs with
  | ready =>
    refine ⟨fun turn h => (by cases h), fun m h => ?_⟩
    cases h
    exact htidy
  | deadlock =>
    refine ⟨fun turn h => ?_, fun m h => (by cases h)⟩
    cases h
    exact htidy.same rfl rfl
  | due =>
    refine ⟨fun turn h => ?_, fun m h => (by cases h)⟩
    cases h
    exact (htidy.arrive _).conclude _
  | jump =>
    refine ⟨fun turn h => (by cases h), fun m h => ?_⟩
    cases h
    unfold SimLoop.jump
    split
    · exact (htidy.arrive _).same rfl rfl
    · exact htidy

section Steps
variable (hsched : c.scheduler = randomWalk) (hdraws : DrawingCode c.code)
include hsched hdraws

omit hsched in
theorem Canonical.runHandle (hc : l.Canonical) (h : Handle J) : (l.runHandle c h).1.Canonical := by
  apply Canonical.perform _ (hdraws.call _)
  exact hc.agenda rfl hc.lined.run

omit hsched in
theorem Canonical.execute (hc : l.Canonical) (hhand : l.agenda.hand = none) (count : Nat) (h : Handle J) :
    (l.execute c 0 count h).1.Canonical := by
  have htaken : (((l.takeStep c 0 count h).numberStep).countInstant).Canonical :=
    hc.agenda rfl (hc.lined.take hhand)
  have hfinish : ∀ result : SimLoop R σ J Unit × Option PyException, result.1.Canonical →
      (finishStep result).1.Canonical := by
    rintro ⟨m, e⟩ hm
    cases e with
    | some e => exact hm
    | none =>
      have hbound : m.bound.Canonical := hm.same rfl rfl
      unfold finishStep
      dsimp only
      split
      · exact hbound.conclude _
      · exact hbound
  unfold SimLoop.execute
  dsimp only
  split
  · exact htaken.agenda rfl htaken.lined.lose
  · apply hfinish
    apply Canonical.runHandle hdraws
    unfold collectDue
    split
    · exact (htaken.perform hdraws.collect).same rfl rfl
    · exact htaken

theorem Canonical.choose (hc : l.Canonical) (hhand : l.agenda.hand = none) :
    (l.choose c).1.Canonical := by
  unfold SimLoop.choose
  split
  · exact hc
  · next first rest hready =>
    obtain ⟨index, tape, hpick, hzero, htape⟩ := randomWalk_zero hc.zeroing first rest
    rw [hsched, hpick]
    dsimp only
    rw [hzero]
    exact Canonical.execute (l := {l with scheduler := (), tape := tape}) hdraws ⟨htape, hc.lined⟩
      hhand _ _

theorem Canonical.runOnce (hc : l.Canonical) (hhand : l.agenda.hand = none) :
    (l.runOnce c).1.Canonical := by
  obtain ⟨hends, hgoes⟩ := hc.settle (c := c)
  unfold SimLoop.runOnce
  split
  · next turn hsettle => exact hends turn hsettle
  · next m hsettle =>
    have hm := hgoes m hsettle
    have hidle : m.agenda.hand = none := ((settle_came True True hhand).2 m hsettle).1.hand.trans hhand
    have hwake : m.wake.Canonical := hm.agenda rfl hm.lined.wake
    exact hwake.choose hsched hdraws hidle

omit hsched in
theorem Canonical.drainStep (hc : l.Canonical) (hhand : l.agenda.hand = none) (count : Nat) (h : Handle J) :
    (l.drainStep c 0 count h).1.Canonical ∧ (l.drainStep c 0 count h).1.agenda.hand = none := by
  have htaken : (l.takeStep c 0 count h).Canonical := hc.agenda rfl (hc.lined.take hhand)
  have hran : Follows True True (l.takeStep c 0 count h).agenda (l.drainStep c 0 count h).1.agenda ∧ _ :=
    runHandle_follows h
  exact ⟨htaken.runHandle hdraws h, hran.2⟩

theorem Canonical.drainReady (limit : Nat) (hc : l.Canonical) (hhand : l.agenda.hand = none) :
    (l.drainReady c limit).1.Canonical := by
  induction limit generalizing l with
  | zero => exact hc
  | succ limit ih =>
    have hcompact := hc.lined.compact
    unfold SimLoop.drainReady
    dsimp only
    split
    · exact hc.agenda rfl hcompact
    · next first rest hready =>
      obtain ⟨index, tape, hpick, hzero, htape⟩ := randomWalk_zero hc.zeroing first rest
      rw [hsched, hpick]
      dsimp only
      rw [hzero]
      obtain ⟨hstep, hidle⟩ := Canonical.drainStep (c := c) (l := {l with
        agenda := l.agenda.compact, scheduler := (), tape := tape}) hdraws ⟨htape, hcompact⟩
        ((compact_hand l.agenda).trans hhand) (rest.length + 1) ((first :: rest).get index)
      split
      · next hdrain =>
        rw [hdrain] at hstep
        exact hstep
      · next m hdrain =>
        rw [hdrain] at hstep hidle
        have hbound : m.bound.Canonical := hstep.same rfl rfl
        exact ih hbound hidle

theorem Canonical.drive (hc : l.Canonical) (hhand : l.agenda.hand = none) {e : Drive R σ J}
    (hdrive : DrawingDrive e) : (l.drive c e).1.Canonical := by
  cases e with
  | once => exact hc.runOnce hsched hdraws hhand
  | drain limit => exact hc.drainReady hsched hdraws limit hhand
  | outside code => exact hc.perform hdrive
  | finalize =>
    unfold SimLoop.drive finalizeMonitors
    dsimp only
    split
    · exact hc
    · exact hc.conclude _
  | leave | unmonitor => exact hc.same rfl rfl
  | revive => exact hc.agenda rfl hc.lined.reviveCrashed

end Steps

/-- **The canonical schedule is the loop's own order.** On a tape that answers 0 for good,
in any run under the default strategy of code that only draws, callbacks run in the order in
which they were called soon, and timers for one time in the order in which they were set, but
for those that a crash parked. -/
theorem runs_oldest {c : LoopConfig R σ J Unit} (hsched : c.scheduler = randomWalk)
    (hdraws : DrawingCode c.code) (epoch : ℚ) (user : σ) {tape : Tape R} (hzero : tape.Zeroing)
    (es : List (Drive R σ J)) (hdrives : ∀ e ∈ es, DrawingDrive e) :
    let a := ((start epoch user tape ()).after c es).agenda
    ((a.ran.map Ran.handle).filter fun h => h.id ∉ a.shelved).Pairwise fun h k =>
      h.timer = k.timer → h.id < k.id := by
  let I (l : SimLoop R σ J Unit) : Prop := l.Canonical ∧ l.agenda.hand = none
  have hkeeps : Transition.Keeps (move c) (fun _ e => DrawingDrive e) I := by
    rintro l e l' hdrive ⟨hc, hhand⟩ hmove
    refine Option.some.inj hmove ▸ ⟨hc.drive hsched hdraws hhand hdrive, ?_⟩
    exact (show Follows True True l.agenda _ ∧ _ from
      drive_follows hhand e (fun _ _ => trivial) fun _ _ => trivial).2
  have hlast : I ((start epoch user tape ()).after c es) :=
    hkeeps.run (Transition.along_of_forall (fun e he _ => hdrives e he) _)
      ⟨⟨hzero, Agenda.lined_start epoch⟩, rfl⟩ (run_after es)
  refine List.Pairwise.sublist ?_ hlast.1.lined.order
  refine List.Sublist.filter _ ?_
  unfold Agenda.line
  rw [List.append_assoc, List.append_assoc]
  exact List.sublist_append_left _ _

/-- The first callback calls two soon and sets two timers for one time. -/
def pairs : Nat → List (Deed Nat Nat)
  | 0 => [.callSoon ⟨1, none⟩, .callAt 5 ⟨2, none⟩, .callAt 5 ⟨3, none⟩, .callSoon ⟨4, none⟩]
  | _ => []

theorem runs_oldest_pairs :
    let a := ((start 0 0 (.replay [] .fallback 0 .zero) ()).after (scriptedLoop pairs [] 0 10)
      [does [.callSoon ⟨0, none⟩], .once, .once, .once, .once, .drain 1]).agenda
    ((a.ran.map Ran.handle).filter fun h => h.id ∉ a.shelved).Pairwise fun h k =>
      h.timer = k.timer → h.id < k.id :=
  runs_oldest rfl ⟨fun _ _ _ _ _ hz => hz, fun _ _ _ _ hz => hz⟩ 0 0
    ⟨rfl, rfl, [], rfl, .inr le_rfl⟩ _ (by
      intro e he
      simp only [List.mem_cons, List.not_mem_nil, or_false] at he
      rcases he with rfl | rfl | rfl | rfl | rfl | rfl
      · exact fun _ _ _ _ hz => hz
      all_goals trivial)

end SimLoop

end Simloom
