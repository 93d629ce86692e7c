import Simloom.Run.Soak
import Simloom.Theory.Transition
import Mathlib.Logic.Function.Basic

/-! Shards in parallel on one checkpoint.

A write of the checkpoint puts back the cursors of the other shards as they were when it
read the file. Which calls' last writes are in the file is therefore a matter of the order
of the reads and the replaces alone (`Trail`), and a shard's cursor is its next index
exactly when its last write is still there. -/
namespace Simloom
open Theory

/-- Which calls' last writes are in the file, and in the copy that a call has read. -/
structure Trail where
  file : Nat → Bool
  copy : Nat → Nat → Bool

namespace Trail

/-- Before any write there is nothing to miss. -/
def fresh : Trail := ⟨fun _ => true, fun _ _ => true⟩

def after (t : Trail) : Soak.Event → Trail
  | .act i .readExisting => {t with copy := Function.update t.copy i t.file}
  | .act i .replace =>
    { file := Function.update (t.copy i) i true
      copy := fun j => Function.update (t.copy j) i false }
  | _ => t

/-- The reads and replaces of a run, in order. -/
def along (events : List Soak.Event) : Trail := events.foldl after fresh

theorem after_other {t : Trail} {i : Nat} {act : SoakAct}
    (h : act ≠ .readExisting ∧ act ≠ .replace) : t.after (.act i act) = t := by
  cases act <;> first | rfl | simp at h

end Trail

/-- What a cursor shows of a call: all that it wrote, or less. -/
def Shows (all : Bool) (cursor written : Nat) : Prop := if all then cursor = written else cursor < written

/-- The cursor of the call's shard, as far as the call has written it. -/
def SoakCall.written (base : Nat → Nat) (c : SoakCall) : Option Nat :=
  match c.phase with
  | .opening => some (base c.shard)
  | phase => phase.cursor

namespace SoakCall
variable {base : Nat → Nat} {c : SoakCall}

theorem written_of_cursor (index : Nat) (h : c.phase.cursor = some index) :
    c.written base = some index := by
  unfold written
  cases hphase : c.phase <;> rw [hphase] at h <;> first | exact h | cases h

theorem written_of_opening (h : c.phase = .opening) : c.written base = some (base c.shard) := by
  unfold written
  rw [h]

theorem written_of_over (h : c.phase = .over) : c.written base = none := by
  unfold written
  rw [h]
  rfl

end SoakCall

namespace Soak

/-- The cursors of a file or of a copy of it, against what the calls have written. The
call that a copy belongs to may be left out. -/
structure Views (base : Nat → Nat) (s : Soak) (own : Option Nat) (cursor : Nat → Nat)
    (seen : Nat → Bool) : Prop where
  called : ∀ (i : Nat) (c : SoakCall) (n : Nat), own ≠ some i → s.calls[i]? = some c →
    c.written base = some n → Shows (seen i) (cursor c.shard) n
  uncalled : ∀ k, (∀ c ∈ s.calls, c.shard ≠ k) → cursor k = base k

structure Shared (start : Int) (shards : Nat) (base : Nat → Nat) (t : Trail) (s : Soak) : Prop where
  fits : ∀ data ∈ s.file, data.Fits start shards
  apart : ∀ (i j : Nat) (c d : SoakCall), s.calls[i]? = some c → s.calls[j]? = some d →
    i ≠ j → c.shard ≠ d.shard
  unopened : ∀ i, (∀ c, s.calls[i]? = some c → c.phase = .opening) →
    t.file i = true ∧ ∀ j, t.copy j i = true
  file : Views base s none (cursorIn s.file) t.file
  copy : ∀ (j : Nat) (d : SoakCall) (index : Nat) (data : Checkpoint), s.calls[j]? = some d →
    d.phase = .replacing index data → data.Fits start shards ∧
      data.cursor d.shard = index + 1 ∧ Views base s (some j) data.cursor (t.copy j)
  started : ∀ a ∈ s.started, ∃ c, s.calls[a.call]? = some c ∧ c.shard = a.shard ∧
    c.phase ≠ .opening ∧
    ∀ n, c.phase.cursor = some n → a.index < n ∨ c.phase.unsaved = some a.index

variable {start : Int} {shards : Nat} {base : Nat → Nat} {t : Trail} {s : Soak} {i : Nat}
  {c c' : SoakCall}

theorem Views.moved {own own' : Option Nat} {cursor : Nat → Nat} {seen seen' : Nat → Bool}
    (h : Views base s own cursor seen) (hi : s.calls[i]? = some c) (hshard : c'.shard = c.shard)
    (hown : ∀ j, j ≠ i → own' ≠ some j → own ≠ some j) (hseen : ∀ j, j ≠ i → seen' j = seen j)
    (hself : own' ≠ some i → ∀ n, c'.written base = some n → Shows (seen' i) (cursor c.shard) n)
    {s' : Soak} (hcalls : s'.calls = s.calls.set i c') : Views base s' own' cursor seen' where
  called := by
    intro j d n hj hd hn
    rw [hcalls, getElem?_moved hi] at hd
    by_cases hji : j = i
    · subst hji
      rw [if_pos rfl, Option.some.injEq] at hd
      subst hd
      rw [hshard]
      exact hself hj n hn
    · rw [if_neg hji] at hd
      rw [hseen j hji]
      exact h.called j d n (hown j hji hj) hd hn
  uncalled := by
    intro k hk
    refine h.uncalled k fun d hd => ?_
    obtain ⟨j, hj⟩ := List.getElem?_of_mem hd
    have hmoved : (s.calls.set i c')[j]? = if j = i then some c' else s.calls[j]? :=
      getElem?_moved hi j
    by_cases hji : j = i
    · rw [hji, hi, Option.some.injEq] at hj
      rw [if_pos hji] at hmoved
      rw [← hj, ← hshard]
      exact hk c' (hcalls ▸ List.mem_of_getElem? hmoved)
    · rw [if_neg hji, hj] at hmoved
      exact hk d (hcalls ▸ List.mem_of_getElem? hmoved)

/-- A move in which the call writes nothing. -/
theorem Views.still {own : Option Nat} {cursor : Nat → Nat} {seen : Nat → Bool} {t : Soak}
    (h : Views base s own cursor seen) (hi : s.calls[i]? = some c) (hshard : c'.shard = c.shard)
    (hwritten : ∀ n, c'.written base = some n → c.written base = some n)
    (hcalls : t.calls = s.calls.set i c') : Views base t own cursor seen :=
  h.moved hi hshard (fun _ _ hj => hj) (fun _ _ => rfl)
    (fun hown n hn => h.called i c n hown hi (hwritten n hn)) hcalls

/-! ### Steps -/

theorem unopened_moved (hi : s.calls[i]? = some c) (hopening : c'.phase ≠ .opening) (j : Nat)
    (hj : ∀ d, (s.calls.set i c')[j]? = some d → d.phase = .opening) :
    j ≠ i ∧ ∀ d, s.calls[j]? = some d → d.phase = .opening := by
  have hji : j ≠ i := by
    intro hji
    refine hopening (hj c' ?_)
    rw [getElem?_moved hi, if_pos hji]
  refine ⟨hji, fun d hd => hj d ?_⟩
  rw [getElem?_moved hi, if_neg hji]
  exact hd

section Move
variable (h : Shared start shards base t s) (hi : s.calls[i]? = some c) (hshard : c'.shard = c.shard)
include h hi hshard

theorem Shared.apart_moved (j k : Nat) (d e : SoakCall) (hj : (s.calls.set i c')[j]? = some d)
    (hk : (s.calls.set i c')[k]? = some e) (hjk : j ≠ k) : d.shard ≠ e.shard := by
  have hold {m : Nat} {x : SoakCall} (hm : (s.calls.set i c')[m]? = some x) :
      ∃ y, s.calls[m]? = some y ∧ y.shard = x.shard := by
    rw [getElem?_moved hi] at hm
    by_cases hmi : m = i
    · rw [if_pos hmi, Option.some.injEq] at hm
      exact ⟨c, hmi ▸ hi, by rw [← hm, hshard]⟩
    · rw [if_neg hmi] at hm
      exact ⟨x, hm, rfl⟩
  obtain ⟨d', hd', hds⟩ := hold hj
  obtain ⟨e', he', hes⟩ := hold hk
  rw [← hds, ← hes]
  exact h.apart j k d' e' hd' he' hjk

/-- The runs that were started stay accounted for. -/
theorem Shared.started_moved (hopening : c'.phase ≠ .opening)
    (hnext : c.phase ≠ .opening → ∀ n m, c'.phase.cursor = some n → (∀ n, c.phase.cursor = some n →
      m < n ∨ c.phase.unsaved = some m) → m < n ∨ c'.phase.unsaved = some m) :
    ∀ a ∈ s.started, ∃ d, (s.calls.set i c')[a.call]? = some d ∧ d.shard = a.shard ∧
      d.phase ≠ .opening ∧
      ∀ n, d.phase.cursor = some n → a.index < n ∨ d.phase.unsaved = some a.index := by
  intro a ha
  obtain ⟨d, hd, hds, hdo, hdn⟩ := h.started a ha
  by_cases hai : a.call = i
  · rw [hai, hi, Option.some.injEq] at hd
    subst hd
    refine ⟨c', ?_, hshard.trans hds, hopening, fun n hn => hnext hdo n a.index hn hdn⟩
    rw [getElem?_moved hi, if_pos hai]
  · refine ⟨d, ?_, hds, hdo, hdn⟩
    rw [getElem?_moved hi, if_neg hai]
    exact hd

end Move

/-- The call writes nothing and reads no copy. -/
theorem Shared.still (h : Shared start shards base t s) (hi : s.calls[i]? = some c)
    (hshard : c'.shard = c.shard)
    (hwritten : ∀ n, c'.written base = some n → c.written base = some n)
    (hopening : c'.phase ≠ .opening) (hreplacing : ∀ index data, c'.phase ≠ .replacing index data)
    {s' : Soak} (hfile : s'.file = s.file) (hcalls : s'.calls = s.calls.set i c')
    (hstarted : ∀ a ∈ s'.started, ∃ d, s'.calls[a.call]? = some d ∧ d.shard = a.shard ∧
      d.phase ≠ .opening ∧
      ∀ n, d.phase.cursor = some n → a.index < n ∨ d.phase.unsaved = some a.index) :
    Shared start shards base t s' where
  fits := hfile ▸ h.fits
  apart := hcalls ▸ h.apart_moved hi hshard
  unopened j hj := h.unopened j (unopened_moved hi hopening j (hcalls ▸ hj)).2
  file := hfile ▸ h.file.still hi hshard hwritten hcalls
  copy := by
    intro j d index data hj hd
    rw [hcalls, getElem?_moved hi] at hj
    by_cases hji : j = i
    · rw [if_pos hji, Option.some.injEq] at hj
      exact absurd (hj ▸ hd) (hreplacing index data)
    · rw [if_neg hji] at hj
      obtain ⟨hfits, hown, hviews⟩ := h.copy j d index data hj hd
      exact ⟨hfits, hown, hviews.still hi hshard hwritten hcalls⟩
  started := hstarted

theorem Shared.reads (h : Shared start shards base t s) (hi : s.calls[i]? = some c)
    (hshard : c'.shard = c.shard) {index : Nat} (hphase : c.phase = .saving index)
    (hreplacing : c'.phase = .replacing index (updated s.file start shards c.shard (index + 1))) :
    Shared start shards base (t.after (.act i .readExisting))
      {s with calls := s.calls.set i c'} := by
  have hwritten : ∀ n, c'.written base = some n → c.written base = some n := by
    intro n hn
    rw [SoakCall.written_of_cursor index (by rw [hreplacing]; rfl)] at hn
    rw [SoakCall.written_of_cursor index (by rw [hphase]; rfl)]
    exact hn
  have hcursor := updated_cursor h.fits c.shard (index + 1)
  exact {
    fits := h.fits
    apart := h.apart_moved hi hshard
    unopened := by
      intro j hj
      obtain ⟨hji, hold⟩ := unopened_moved hi (by simp [hreplacing]) j hj
      obtain ⟨hfile, hcopy⟩ := h.unopened j hold
      refine ⟨hfile, fun k => ?_⟩
      show Function.update t.copy i t.file k j = true
      by_cases hki : k = i
      · rw [hki, Function.update_self]
        exact hfile
      · rw [Function.update_of_ne hki]
        exact hcopy k
    file := h.file.still hi hshard hwritten rfl
    copy := by
      intro j d index' data hj hd
      show _ ∧ _ ∧ Views base _ (some j) data.cursor (Function.update t.copy i t.file j)
      rw [getElem?_moved hi] at hj
      by_cases hji : j = i
      · rw [if_pos hji, Option.some.injEq] at hj
        subst hj hji
        rw [hreplacing] at hd
        cases hd
        refine ⟨updated_fits _ _, by rw [hcursor, if_pos hshard], ?_⟩
        rw [Function.update_self]
        -- the other shards are in the copy as they are in the file
        have hfile := h.file.still hi hshard hwritten (t := {s with calls := s.calls.set j c'}) rfl
        have hself : (s.calls.set j c')[j]? = some c' := by rw [getElem?_moved hi, if_pos rfl]
        refine ⟨fun k e n hk he hn => ?_, fun k hk => ?_⟩
        · have hkj : k ≠ j := fun hkj => hk (congrArg some hkj.symm)
          have hne := h.apart_moved hi hshard k j e c' he hself hkj
          rw [hcursor, if_neg (hshard ▸ hne)]
          exact hfile.called k e n (by simp) he hn
        · have hne := hk c' (List.mem_of_getElem? hself)
          rw [hcursor, if_neg (hshard ▸ hne.symm)]
          exact hfile.uncalled k hk
      · rw [if_neg hji] at hj
        rw [Function.update_of_ne hji]
        obtain ⟨hfits, hown, hviews⟩ := h.copy j d index' data hj hd
        exact ⟨hfits, hown, hviews.still hi hshard hwritten rfl⟩
    started := h.started_moved hi hshard (by simp [hreplacing]) (by
      intro _ n m hn hm
      rw [hreplacing] at hn ⊢
      exact hm n (by rw [hphase]; exact hn) |>.imp id (by rw [hphase]; exact id)) }

theorem Shared.replaces (h : Shared start shards base t s) (hi : s.calls[i]? = some c)
    (hshard : c'.shard = c.shard) {index : Nat} {data : Checkpoint}
    (hphase : c.phase = .replacing index data) (hsaved : c'.phase = .saved (index + 1)) :
    Shared start shards base (t.after (.act i .replace))
      {s with file := some data, calls := s.calls.set i c'} := by
  obtain ⟨hfits, hown, hviews⟩ := h.copy i c index data hi hphase
  have hwritten : c.written base = some index :=
    SoakCall.written_of_cursor _ (by rw [hphase]; rfl)
  have hwritten' : c'.written base = some (index + 1) :=
    SoakCall.written_of_cursor _ (by rw [hsaved]; rfl)
  exact {
    fits := fun _ hdata => Option.some.inj hdata ▸ hfits
    apart := h.apart_moved hi hshard
    unopened := by
      intro j hj
      obtain ⟨hji, hold⟩ := unopened_moved hi (by simp [hsaved]) j hj
      obtain ⟨_, hcopy⟩ := h.unopened j hold
      refine ⟨?_, fun k => ?_⟩
      · show Function.update (t.copy i) i true j = true
        rw [Function.update_of_ne hji]
        exact hcopy i
      · show Function.update (t.copy k) i false j = true
        rw [Function.update_of_ne hji]
        exact hcopy k
    file := by
      refine hviews.moved hi hshard (fun j hji _ => ?_)
        (fun j hji => Function.update_of_ne hji _ _) (fun _ n hn => ?_) rfl
      · exact fun hij => hji (Option.some.inj hij).symm
      · rw [hwritten', Option.some.injEq] at hn
        rw [← hn]
        show Shows (Function.update (t.copy i) i true i) _ _
        rw [Function.update_self]
        exact hown
    copy := by
      intro j d index' data' hj hd
      rw [getElem?_moved hi] at hj
      by_cases hji : j = i
      · rw [if_pos hji, Option.some.injEq] at hj
        rw [← hj, hsaved] at hd
        cases hd
      · rw [if_neg hji] at hj
        obtain ⟨hfits', hown', hviews'⟩ := h.copy j d index' data' hj hd
        refine ⟨hfits', hown', hviews'.moved hi hshard (fun _ _ hk => hk)
          (fun k hki => Function.update_of_ne hki _ _) (fun hk n hn => ?_) rfl⟩
        rw [hwritten', Option.some.injEq] at hn
        rw [← hn]
        show Shows (Function.update (t.copy j) i false i) _ _
        rw [Function.update_self]
        -- the copy was read before the write that has just been made
        have hbefore := hviews'.called i c index hk hi hwritten
        show data'.cursor c.shard < index + 1
        unfold Shows at hbefore
        split at hbefore <;> omega
    started := h.started_moved hi hshard (by simp [hsaved]) (by
      intro _ n m hn hm
      rw [hsaved] at hn
      cases hn
      left
      rcases hm index (by rw [hphase]; rfl) with hlt | heq
      · omega
      · rw [hphase] at heq
        cases heq
        omega) }

theorem Shared.act (h : Shared start shards base t s) (hi : s.calls[i]? = some c) {act : SoakAct}
    {file : Option Checkpoint} (hdid : SoakCall.Did start shards s.file c act file c') :
    Shared start shards base (t.after (.act i act)) (s.after i c c' file) := by
  cases hdid with
  | @opened _ index hphase hread hshard hready =>
    rw [after_quiet (by simp [hready]) (by simp [hready])]
    refine h.still hi hshard ?_ (by simp [hready]) (by simp [hready]) rfl rfl ?_
    · -- the first cursor is the one in the file at the start
      have hviews := h.file.called i c (base c.shard) (by simp) hi
        (SoakCall.written_of_opening hphase)
      have hseen := (h.unopened i fun d hd => by
        rw [hi, Option.some.injEq] at hd
        rw [← hd, hphase]).1
      rw [hseen] at hviews
      have hcursor : index = base c.shard := (readCursor_ok hread).symm.trans hviews
      rw [SoakCall.written_of_cursor index (by rw [hready]; rfl),
        SoakCall.written_of_opening hphase, hcursor]
      exact fun _ hn => hn
    · exact h.started_moved hi hshard (by simp [hready]) fun hopening => absurd hphase hopening
  | @started _ index hphase hshard hrunning =>
    rw [after_start hphase hrunning]
    refine h.still hi hshard ?_ (by simp [hrunning]) (by simp [hrunning]) rfl rfl ?_
    · rw [SoakCall.written_of_cursor index (by rw [hrunning]; rfl),
        SoakCall.written_of_cursor index (by rw [hphase]; rfl)]
      exact fun _ hn => hn
    · intro a ha
      rcases List.mem_append.mp ha with ha | ha
      · refine h.started_moved hi hshard (by simp [hrunning]) ?_ a ha
        intro _ n m hn hm
        rw [hrunning] at hn
        refine .inl ((hm n (by rw [hphase]; exact hn)).resolve_right ?_)
        rw [hphase]
        exact fun heq => nomatch heq
      · rw [List.mem_singleton.mp ha]
        refine ⟨c', ?_, hshard, by simp [hrunning], fun _ _ => .inr (by rw [hrunning]; rfl)⟩
        show (s.calls.set i c')[i]? = some c'
        rw [getElem?_moved hi, if_pos rfl]
  | @went _ _ index hact _ hcursor hshard hcursor' hunsaved hrunning hreplacing =>
    have hopening : c'.phase ≠ .opening := fun ho => by rw [ho] at hcursor'; cases hcursor'
    rw [Trail.after_other hact,
      after_quiet hrunning (fun ho => by rw [ho] at hcursor'; cases hcursor')]
    refine h.still hi hshard ?_ hopening hreplacing rfl rfl ?_
    · rw [SoakCall.written_of_cursor _ hcursor', SoakCall.written_of_cursor _ hcursor]
      exact fun _ hn => hn
    · refine h.started_moved hi hshard hopening fun _ n m hn hm => ?_
      rw [hunsaved]
      exact hm n (by rw [hcursor, ← hcursor', hn])
  | readExisting hphase hshard hreplacing =>
    rw [after_quiet (by simp [hreplacing]) (by simp [hreplacing])]
    exact h.reads hi hshard hphase hreplacing
  | replaced hphase hshard hsaved =>
    rw [after_quiet (by simp [hsaved]) (by simp [hsaved])]
    exact h.replaces hi hshard hphase hsaved
  | ended hact _ hshard hover =>
    rw [Trail.after_other hact, after_over hover]
    refine h.still hi hshard ?_ (by simp [hover]) (by simp [hover]) rfl rfl ?_
    · rw [SoakCall.written_of_over hover]
      exact fun _ hn => nomatch hn
    · refine h.started_moved hi hshard (by simp [hover]) fun _ n m hn => ?_
      rw [hover] at hn
      cases hn

theorem shard_nonneg {shards shard count : Int} (h : validateSoak shards shard count = .ok ()) :
    0 ≤ shard := by
  unfold validateSoak at h
  split at h
  · cases h
  · split at h
    · cases h
    · next hshard => exact (not_not.mp hshard).1

/-- Each shard has one call. -/
def Apart (s : Soak) : Event → Prop
  | .begin shard .. => ∀ c ∈ s.calls, (c.shard : Int) ≠ shard
  | .act .. => True

instance (s : Soak) : (e : Event) → Decidable (s.Apart e)
  | .begin shard .. => inferInstanceAs (Decidable (∀ c ∈ s.calls, (c.shard : Int) ≠ shard))
  | .act .. => inferInstanceAs (Decidable True)

theorem Views.begin {own : Option Nat} {cursor : Nat → Nat} {seen : Nat → Bool} {d : SoakCall}
    (h : Views base s own cursor seen) (hopening : d.phase = .opening)
    (hnew : ∀ c ∈ s.calls, c.shard ≠ d.shard) (hseen : seen s.calls.length = true) :
    Views base {s with calls := s.calls ++ [d]} own cursor seen where
  called := by
    intro j c n hown hj hn
    rcases Nat.lt_trichotomy j s.calls.length with hlt | heq | hgt
    · exact h.called j c n hown (by rwa [List.getElem?_append_left hlt] at hj) hn
    · rw [heq, List.getElem?_concat_length, Option.some.injEq] at hj
      rw [← hj, SoakCall.written_of_opening hopening, Option.some.injEq] at hn
      rw [heq, hseen, ← hj, ← hn]
      exact h.uncalled d.shard hnew
    · rw [List.getElem?_eq_none (by simp; omega)] at hj
      cases hj
  uncalled k hk := h.uncalled k fun c hc => hk c (List.mem_append_left _ hc)

theorem Shared.begin (h : Shared start shards base t s) {d : SoakCall} (hopening : d.phase = .opening)
    (hnew : ∀ c ∈ s.calls, c.shard ≠ d.shard) :
    Shared start shards base t {s with calls := s.calls ++ [d]} := by
  have hlast := h.unopened s.calls.length fun c hc => by simp at hc
  have hcall {j : Nat} {c : SoakCall} (hj : (s.calls ++ [d])[j]? = some c) :
      s.calls[j]? = some c ∨ (j = s.calls.length ∧ c = d) := by
    rcases Nat.lt_trichotomy j s.calls.length with hlt | heq | hgt
    · exact .inl (by rwa [List.getElem?_append_left hlt] at hj)
    · rw [heq, List.getElem?_concat_length, Option.some.injEq] at hj
      exact .inr ⟨heq, hj.symm⟩
    · rw [List.getElem?_eq_none (by simp; omega)] at hj
      cases hj
  exact {
    fits := h.fits
    apart := by
      intro j k c e hj hk hjk
      rcases hcall hj with hj' | ⟨hj', rfl⟩ <;> rcases hcall hk with hk' | ⟨hk', rfl⟩
      · exact h.apart j k c e hj' hk' hjk
      · exact hnew c (List.mem_of_getElem? hj')
      · exact (hnew e (List.mem_of_getElem? hk')).symm
      · exact absurd (hj'.trans hk'.symm) hjk
    unopened := by
      intro j hj
      refine h.unopened j fun c hc => hj c ?_
      obtain ⟨hlt, _⟩ := List.getElem?_eq_some_iff.mp hc
      show (s.calls ++ [d])[j]? = some c
      rw [List.getElem?_append_left hlt, hc]
    file := h.file.begin hopening hnew hlast.1
    copy := by
      intro j c index data hj hc
      rcases hcall hj with hj | ⟨_, rfl⟩
      · obtain ⟨hfits, hown, hviews⟩ := h.copy j c index data hj hc
        exact ⟨hfits, hown, hviews.begin hopening hnew (hlast.2 j)⟩
      · rw [hopening] at hc
        cases hc
    started := by
      intro a ha
      obtain ⟨c, hc, hrest⟩ := h.started a ha
      obtain ⟨hlt, _⟩ := List.getElem?_eq_some_iff.mp hc
      refine ⟨c, ?_, hrest⟩
      show (s.calls ++ [d])[a.call]? = some c
      rw [List.getElem?_append_left hlt, hc] }

theorem Shared.step {s' : Soak} {e : Event} (h : Shared start shards base t s) (hapart : s.Apart e)
    (hstep : s.step start shards e = some s') : Shared start shards base (t.after e) s' := by
  cases e with
  | begin shard count stopOnFailure onFailure =>
    unfold Soak.step at hstep
    dsimp only at hstep
    split at hstep
    next hvalid =>
      cases hstep
      refine h.begin (d := .begin shard.toNat count.toNat stopOnFailure onFailure) rfl fun c hc heq => ?_
      have hshard := shard_nonneg hvalid
      have hne := hapart c hc
      rw [show c.shard = shard.toNat from heq, Int.toNat_of_nonneg hshard] at hne
      exact hne rfl
    next =>
      cases hstep
      exact h
  | act i act =>
    obtain ⟨c, c', file, hi, hdid, rfl⟩ := did_of_step hstep
    exact h.act hi hdid

theorem Shared.run {events : List Event} {s' : Soak} (h : Shared start shards base t s)
    (hapart : Transition.Along (Soak.step start shards) Apart s events)
    (hrun : Transition.run (Soak.step start shards) s events = some s') :
    Shared start shards base (events.foldl Trail.after t) s' := by
  induction events generalizing s t with
  | nil => exact Option.some.inj hrun ▸ h
  | cons e rest ih =>
    obtain ⟨m, hm, hrest⟩ := Transition.run_cons.mp hrun
    exact ih (h.step hapart.1 hm) (hapart.2 m hm) hrest

theorem shared_on {file : Option Checkpoint} (hfits : ∀ data ∈ file, data.Fits start shards) :
    Shared start shards (cursorIn file) .fresh (on file) where
  fits := hfits
  apart := fun _ _ _ _ hi => nomatch hi
  unopened := fun _ _ => ⟨rfl, fun _ => rfl⟩
  file := ⟨fun _ _ _ _ hi => (nomatch hi), fun _ _ => rfl⟩
  copy := fun _ _ _ _ hi => nomatch hi
  started := fun _ ha => nomatch ha

/-- Each shard's cursor is its report's next index, and so past every index that was run. -/
def Complete (s : Soak) : Prop :=
  (∀ c ∈ s.calls, ∀ report, c.phase = .returned report →
    cursorIn s.file c.shard = report.nextIndex) ∧
  ∀ a ∈ s.started, a.index < cursorIn s.file a.shard

/-- Once every call has returned, no progress is lost exactly when the file has the last
write of each, as the order of the reads and the replaces decides it. -/
theorem shards_complete_iff (start : Int) (shards : Nat) (file : Option Checkpoint)
    (hfits : ∀ data ∈ file, data.Fits start shards) (events : List Event) (s : Soak)
    (hapart : Transition.Along (Soak.step start shards) Apart (on file) events)
    (hrun : Transition.run (Soak.step start shards) (on file) events = some s)
    (hreturned : ∀ c ∈ s.calls, ∃ report, c.phase = .returned report) :
    s.Complete ↔ ∀ i < s.calls.length, (Trail.along events).file i = true := by
  have h : Shared start shards (cursorIn file) (Trail.along events) s :=
    (shared_on hfits).run hapart hrun
  have hcursor (i : Nat) (c : SoakCall) (report : SoakReport) (hi : s.calls[i]? = some c)
      (hphase : c.phase = .returned report) :
      Shows ((Trail.along events).file i) (cursorIn s.file c.shard) report.nextIndex :=
    h.file.called i c report.nextIndex (by simp) hi
      (SoakCall.written_of_cursor _ (by rw [hphase]; rfl))
  constructor
  · intro hcomplete i hlt
    have hi : s.calls[i]? = some s.calls[i] := List.getElem?_eq_getElem hlt
    obtain ⟨report, hphase⟩ := hreturned _ (List.getElem_mem hlt)
    have heq := hcomplete.1 _ (List.getElem_mem hlt) report hphase
    have hshows := hcursor i _ report hi hphase
    by_contra hmissing
    rw [Bool.not_eq_true] at hmissing
    rw [hmissing] at hshows
    exact absurd heq (Nat.ne_of_lt hshows)
  · intro hall
    have hlast (c : SoakCall) (hc : c ∈ s.calls) (report : SoakReport)
        (hphase : c.phase = .returned report) : cursorIn s.file c.shard = report.nextIndex := by
      obtain ⟨i, hi⟩ := List.getElem?_of_mem hc
      have hshows := hcursor i c report hi hphase
      rw [hall i (List.getElem?_eq_some_iff.mp hi).1] at hshows
      exact hshows
    refine ⟨hlast, fun a ha => ?_⟩
    obtain ⟨c, hc, hshard, _, hn⟩ := h.started a ha
    have hmem := List.mem_of_getElem? hc
    obtain ⟨report, hphase⟩ := hreturned c hmem
    rw [← hshard, hlast c hmem report hphase]
    rcases hn report.nextIndex (by rw [hphase]; rfl) with hlt | hunsaved
    · exact hlt
    · rw [hphase] at hunsaved
      cases hunsaved

/-- A call runs its index, and the run is good. -/
def runsIndex (i : Nat) : List Event :=
  [.act i .opened, .act i .loop, .act i (.finish ⟨.ok, none, none, [], [], [], .random, by decide⟩),
    .act i (.report false)]

/-- Two shards of one index each. -/
def twoShards (writes : List Event) : List Event :=
  [.begin 0 1 false false, .begin 1 1 false false] ++ runsIndex 0 ++ runsIndex 1 ++ writes ++
    [.act 0 .check, .act 1 .check, .act 0 .loop, .act 1 .loop]

/-- Both read the file before either replaces it. -/
def bothRead : List Event :=
  twoShards [.act 0 .readExisting, .act 1 .readExisting, .act 0 .replace, .act 1 .replace]

/-- The second reads what the first has written. -/
def inTurn : List Event :=
  twoShards [.act 0 .readExisting, .act 0 .replace, .act 1 .readExisting, .act 1 .replace]

def allReturned (s : Soak) : Bool :=
  s.calls.all fun c => match c.phase with
    | .returned _ => true
    | _ => false

theorem returned_of_all (h : s.allReturned = true) :
    ∀ c ∈ s.calls, ∃ report, c.phase = .returned report := by
  intro c hc
  have hphase := List.all_eq_true.mp h c hc
  split at hphase
  next report heq => exact ⟨report, heq⟩
  next => cases hphase

/-- The first shard's write is lost, and its index will be run again. -/
theorem bothRead_incomplete : ∃ s, Transition.run (Soak.step 0 2) (on none) bothRead = some s ∧
    Transition.Along (Soak.step 0 2) Apart (on none) bothRead ∧
    (∀ c ∈ s.calls, ∃ report, c.phase = .returned report) ∧
    ⟨0, 0, 0⟩ ∈ s.started ∧ cursorIn s.file 0 = 0 ∧ ¬s.Complete := by
  obtain ⟨s, hrun, hs⟩ := Option.any_eq_true _ _ |>.mp
    (show ((Transition.run (Soak.step 0 2) (on none) bothRead).any fun s =>
      s.allReturned ∧ ⟨0, 0, 0⟩ ∈ s.started ∧ cursorIn s.file 0 = 0) = true by decide +kernel)
  obtain ⟨hreturned, hstarted, hcursor⟩ := of_decide_eq_true hs
  refine ⟨s, hrun, by decide +kernel, returned_of_all hreturned, hstarted, hcursor, fun h => ?_⟩
  have hlt := h.2 _ hstarted
  rw [hcursor] at hlt
  exact Nat.lt_irrefl 0 hlt

theorem inTurn_complete : ∃ s, Transition.run (Soak.step 0 2) (on none) inTurn = some s ∧
    s.Complete := by
  obtain ⟨s, hrun, hs⟩ := Option.any_eq_true _ _ |>.mp
    (show ((Transition.run (Soak.step 0 2) (on none) inTurn).any fun s =>
      s.allReturned ∧ s.calls.length = 2) = true by decide +kernel)
  obtain ⟨hreturned, hlength⟩ := of_decide_eq_true hs
  refine ⟨s, hrun, (shards_complete_iff 0 2 none (by simp) inTurn s (by decide +kernel) hrun
    (returned_of_all hreturned)).mpr ?_⟩
  rw [hlength]
  decide

end Soak

end Simloom
