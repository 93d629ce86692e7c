import Simloom.Run.Lone

/-! Strict replays.

`Follows` says, on the recorded list alone, what a program does when its requests
are answered from a recording where they match the next draw and refused where they
do not. A strict replay does just that, so a run leaves of its recording what the
program does not ask for. The harness looks at what is left only when nothing else
failed, which decides when a strict replay is whole (`strict_replay_whole_iff`). -/
namespace Simloom
variable {R : RandomSource} {α : Type}

/-! ### Following a recording -/

/-- The refusal of a request when `left` of `total` recorded draws are left. -/
def refusal (total : Nat) (left : List Draw) (label : String) (bound : Nat) : Divergence :=
  match left with
  | [] => .exhausted total label bound total
  | d :: rest => .mismatched (total - (d :: rest).length) label bound d.label d.bound

/-- With its requests answered from `left`, the process ends in `a` with `rest` left. -/
inductive Process.Follows (p : Process α) (total : Nat) :
    List Reply → List Draw → α → List Draw → Prop where
  | finish {replies : List Reply} {left : List Draw} {a : α} : p replies = .finish a →
      Follows p total replies left a left
  | answer {replies : List Reply} {d : Draw} {left rest : List Draw} {a : α} :
      p replies = .draw d.label d.bound →
      Follows p total (replies ++ [.ok d.value]) left a rest → Follows p total replies (d :: left) a rest
  | refuse {replies : List Reply} {left rest : List Draw} {a : α} {label : String} {bound : Nat} :
      p replies = .draw label bound → 0 < bound →
      (∀ d ∈ left.head?, ¬ (d.label = label ∧ d.bound = bound)) →
      Follows p total (replies ++ [.error (.misaligned (refusal total left label bound))]) left a rest →
      Follows p total replies left a rest
  | invalid {replies : List Reply} {left rest : List Draw} {a : α} {label : String} :
      p replies = .draw label 0 →
      Follows p total (replies ++ [.error (.invalidBound 0)]) left a rest →
      Follows p total replies left a rest

/-- A strict tape with `left` of `total` recorded draws to come. -/
structure Tape.Strict (t : Tape R) (total : Nat) (left : List Draw) : Prop where
  feeding : t.Feeding left
  policy : t.policy = .strict
  total : t.recordedLength = some total

namespace Tape.Strict
variable {t u : Tape R} {total : Nat} {left : List Draw}

theorem same (h : t.Strict total left) {rest : List Draw} (hs : t.SameSource u)
    (hf : u.Feeding rest) : u.Strict total rest :=
  ⟨hf, hs.2.1.trans h.policy, by rw [recordedLength, hs.1]; exact h.total⟩

theorem position (h : t.Strict total left) : t.position = total - left.length := by
  have hlen := h.feeding.recordedLength
  rw [h.total] at hlen
  have := Option.some.inj hlen
  omega

/-- What does not match is refused. -/
theorem draw_refused (h : t.Strict total left) {label : String} {bound : Nat} (hb : 0 < bound)
    (hn : ∀ d ∈ left.head?, ¬ (d.label = label ∧ d.bound = bound)) :
    t.draw label bound = .error (.misaligned (refusal total left label bound)) := by
  have hpos := h.position
  unfold Tape.draw
  rw [dif_pos hb, h.feeding.nextValue]
  cases left with
  | nil =>
    have hpos' : t.position = total := hpos
    simp only [Tape.diverge, h.policy, h.total, hpos', refusal, Option.getD_some]
    rfl
  | cons d rest =>
    have hd : ¬ (d.label = label ∧ d.bound = bound) := hn d rfl
    simp only [dif_neg hd, Tape.diverge, h.policy, hpos, refusal]
    rfl

end Tape.Strict

/-- The next recorded draw is what was asked for. -/
theorem head_matches {left : List Draw} {label : String} {bound : Nat}
    (h : ¬ ∀ d ∈ left.head?, ¬ (d.label = label ∧ d.bound = bound)) :
    ∃ d rest, left = d :: rest ∧ d.label = label ∧ d.bound = bound := by
  obtain ⟨d, hd⟩ := not_forall.mp h
  obtain ⟨hmem, hmatch⟩ := Classical.not_imp.mp hd
  obtain ⟨rest, hleft⟩ := List.head?_eq_some_iff.mp hmem
  exact ⟨d, rest, hleft, Classical.not_not.mp hmatch⟩

namespace Process
variable {p : Process α}

/-- A strict replay follows its recording. -/
theorem run_follows {t t' : Tape R} {total : Nat} {left : List Draw} {fuel : Nat}
    {replies : List Reply} {a : α} (h : p.run fuel replies t = some (a, t'))
    (ht : t.Strict total left) :
    ∃ used rest, left = used ++ rest ∧ p.Follows total replies left a rest ∧
      t'.Strict total rest ∧ t'.draws = t.draws ++ used := by
  refine run_induct (motive := fun _ replies t => ∀ left, t.Strict total left →
    ∃ used rest, left = used ++ rest ∧ p.Follows total replies left a rest ∧
      t'.Strict total rest ∧ t'.draws = t.draws ++ used) ?_ ?_ ?_ h left ht
  · intro _ _ hp left ht
    exact ⟨[], left, rfl, .finish hp, ht, (List.append_nil _).symm⟩
  · intro _ replies t label bound v w hp hd ih left ht
    have hb : 0 < bound := Nat.lt_of_le_of_lt (Nat.zero_le _) v.isLt
    by_cases hn : ∀ d ∈ left.head?, ¬ (d.label = label ∧ d.bound = bound)
    · rw [ht.draw_refused hb hn] at hd
      cases hd
    · -- the next recorded draw answers
      obtain ⟨d, left', rfl, rfl, rfl⟩ := head_matches hn
      obtain ⟨u, hu, hfu, hdu, hsu, _⟩ := Tape.Feeding.draw ht.feeding
      obtain ⟨rfl, rfl⟩ := Prod.mk.inj (Except.ok.inj (hd.symm.trans hu))
      obtain ⟨used, rest, hl, hf, hs, hdraws⟩ := ih left' (ht.same hsu hfu)
      refine ⟨d :: used, rest, by rw [hl]; rfl, .answer hp hf, hs, ?_⟩
      rw [hdraws, hdu, List.append_assoc, List.singleton_append]
  · intro _ replies t label bound e hp hd ih left ht
    obtain ⟨used, rest, hl, hf, hs, hdraws⟩ := ih left ht
    rcases Nat.eq_zero_or_pos bound with rfl | hb
    · -- an invalid bound is refused by any tape
      obtain rfl := Except.error.inj (hd.symm.trans (t.draw_zero label))
      exact ⟨used, rest, hl, .invalid hp hf, hs, hdraws⟩
    · by_cases hn : ∀ d ∈ left.head?, ¬ (d.label = label ∧ d.bound = bound)
      · obtain rfl := Except.error.inj (hd.symm.trans (ht.draw_refused hb hn))
        exact ⟨used, rest, hl, .refuse hp hb hn hf, hs, hdraws⟩
      · obtain ⟨d, left', rfl, rfl, rfl⟩ := head_matches hn
        obtain ⟨u, hu, -⟩ := Tape.Feeding.draw ht.feeding
        rw [hu] at hd
        cases hd

/-- And where the recording can be followed, a strict replay does so. -/
theorem Follows.run {total : Nat} {replies : List Reply} {left rest : List Draw} {a : α}
    (h : p.Follows total replies left a rest) {t : Tape R} (ht : t.Strict total left) :
    ∃ fuel t' used, p.run fuel replies t = some (a, t') ∧ left = used ++ rest ∧
      t'.Strict total rest ∧ t'.draws = t.draws ++ used := by
  induction h generalizing t with
  | finish hp => exact ⟨0, t, [], run_finish hp 0 t, rfl, ht, (List.append_nil _).symm⟩
  | @answer replies d left rest a hp _ ih =>
    obtain ⟨u, hu, hfu, hdu, hsu, _⟩ := Tape.Feeding.draw ht.feeding
    obtain ⟨fuel, t', used, hr, hl, hs, hd⟩ := ih (ht.same hsu hfu)
    refine ⟨fuel + 1, t', d :: used, (run_draw_ok hp fuel hu).trans hr, by rw [hl]; rfl, hs, ?_⟩
    rw [hd, hdu, List.append_assoc, List.singleton_append]
  | refuse hp hb hn _ ih =>
    obtain ⟨fuel, t', used, hr, hl, hs, hd⟩ := ih ht
    exact ⟨fuel + 1, t', used, (run_draw_error hp fuel (ht.draw_refused hb hn)).trans hr, hl, hs, hd⟩
  | @invalid replies left rest a label hp _ ih =>
    obtain ⟨fuel, t', used, hr, hl, hs, hd⟩ := ih ht
    exact ⟨fuel + 1, t', used, (run_draw_error hp fuel (t.draw_zero label)).trans hr, hl, hs, hd⟩

end Process

/-! ### Setting up -/

/-- On a strict tape, the phase returns exactly the results `P` relates to what it
consumes. -/
structure Taped.Reads (x : Taped R α) (P : List Draw → α → Prop) : Prop where
  sound : ∀ {t t' : Tape R} {total : Nat} {left : List Draw} {a : α}, t.Strict total left →
    x t = .ok (a, t') → ∃ used rest, left = used ++ rest ∧ P used a ∧ t'.Strict total rest ∧
      t'.draws = t.draws ++ used
  complete : ∀ {t : Tape R} {total : Nat} {used rest : List Draw} {a : α}, P used a →
    t.Strict total (used ++ rest) → ∃ t', x t = .ok (a, t') ∧ t'.Strict total rest ∧
      t'.draws = t.draws ++ used

namespace Taped
variable {β : Type}

theorem reads_pure (a : α) : (pure a : Taped R α).Reads fun used b => used = [] ∧ b = a where
  sound {t t' total left b} ht h := by
    obtain ⟨rfl, rfl⟩ := Prod.mk.inj (Except.ok.inj h)
    exact ⟨[], left, rfl, ⟨rfl, rfl⟩, ht, (List.append_nil _).symm⟩
  complete {t total used rest b} hP ht := by
    obtain ⟨rfl, rfl⟩ := hP
    exact ⟨t, rfl, ht, (List.append_nil _).symm⟩

theorem reads_fail (e : Halt) : (fail e : Taped R α).Reads fun _ _ => False where
  sound _ h := by cases h
  complete h _ := h.elim

/-- A draw of the harness reads the one recorded draw that matches it. -/
theorem reads_draw (label : String) (bound : Nat) : (draw label bound : Taped R Nat).Reads
    fun used v => ∃ d, used = [d] ∧ d.label = label ∧ d.bound = bound ∧ v = d.value where
  sound {t t' total left v} ht h := by
    by_cases hn : bound = 0 ∨ ∀ d ∈ left.head?, ¬ (d.label = label ∧ d.bound = bound)
    · -- a refusal raises
      have hrefused : ∃ e, t.draw label bound = .error e := by
        rcases hn with rfl | hn
        · exact ⟨_, t.draw_zero label⟩
        · rcases Nat.eq_zero_or_pos bound with rfl | hb
          · exact ⟨_, t.draw_zero label⟩
          · exact ⟨_, ht.draw_refused hb hn⟩
      obtain ⟨e, he⟩ := hrefused
      rw [draw, he] at h
      cases h
    · obtain ⟨d, left', rfl, rfl, rfl⟩ := head_matches (not_or.mp hn).2
      obtain ⟨u, hu, hfu, hdu, hsu, _⟩ := Tape.Feeding.draw ht.feeding
      rw [draw, hu] at h
      obtain ⟨rfl, rfl⟩ := Prod.mk.inj (Except.ok.inj h)
      exact ⟨[d], left', rfl, ⟨d, rfl, rfl, rfl, rfl⟩, ht.same hsu hfu, hdu⟩
  complete {t total used rest v} hP ht := by
    obtain ⟨d, rfl, rfl, rfl, rfl⟩ := hP
    obtain ⟨u, hu, hfu, hdu, hsu, _⟩ := Tape.Feeding.draw ht.feeding
    exact ⟨u, by rw [draw, hu], ht.same hsu hfu, hdu⟩

theorem Reads.bind {x : Taped R α} {f : α → Taped R β} {P : List Draw → α → Prop}
    {Q : α → List Draw → β → Prop} (hx : x.Reads P) (hf : ∀ a, (f a).Reads (Q a)) :
    (x >>= f).Reads fun ds b => ∃ used used' a, ds = used ++ used' ∧ P used a ∧ Q a used' b where
  sound {t t' total left b} ht h := by
    obtain ⟨a, u, ha, hb⟩ := bind_ok h
    obtain ⟨used, rest, hl, hP, hu, hd⟩ := hx.sound ht ha
    obtain ⟨used', rest', hl', hQ, hu', hd'⟩ := (hf a).sound hu hb
    refine ⟨used ++ used', rest', ?_, ⟨used, used', a, rfl, hP, hQ⟩, hu', ?_⟩
    · rw [hl, hl', List.append_assoc]
    · rw [hd', hd, List.append_assoc]
  complete {t total ds rest b} hP ht := by
    obtain ⟨used, used', a, rfl, hP, hQ⟩ := hP
    rw [List.append_assoc] at ht
    obtain ⟨u, hu, htu, hdu⟩ := hx.complete hP ht
    obtain ⟨v, hv, htv, hdv⟩ := (hf a).complete hQ htu
    refine ⟨v, ?_, htv, by rw [hdv, hdu, List.append_assoc]⟩
    show (x t >>= fun p => f p.1 p.2) = _
    rw [hu]
    exact hv

theorem Reads.congr {x : Taped R α} {P Q : List Draw → α → Prop} (hx : x.Reads P)
    (h : ∀ ds a, P ds a ↔ Q ds a) : x.Reads Q := by
  have : P = Q := funext fun ds => funext fun a => propext (h ds a)
  exact this ▸ hx

end Taped

/-- The draws that make a scheduler: the change points of a PCT one. -/
inductive Strategy.Drawn : Strategy → List Draw → SchedulerState → Prop where
  | random : Drawn .random [] .randomWalk
  | pct {depth horizon : Int} {points : List Draw} : points.length = (depth - 1).toNat →
      (∀ d ∈ points, d.label = "pct.change" ∧ (d.bound : Int) = horizon) →
      Drawn (.pct depth horizon) points (.pct (points.map Draw.value))

/-- The draws that seed the environment: one or none. -/
inductive EntropyDrawn : Bool → List Draw → Option Nat → Prop where
  | off : EntropyDrawn false [] none
  | on {d : Draw} : d.label = "entropy.seed" → d.bound = 2 ^ 31 - 1 →
      EntropyDrawn true [d] (some d.value)

/-- The program can run with this `world` option. -/
def Program.Accepts (main : Program) (world : Bool) : Prop :=
  ∃ wants, main.wantsWorld = .ok wants ∧ (wants = true → world = true)

/-- The draws of a whole set-up, and the setting they make. -/
structure SettingDrawn (main : Program) (strategy : Strategy) (kw : RunKwargs) (ds : List Draw)
    (s : Setting) : Prop where
  accepts : main.Accepts kw.options.world
  drawn : ∃ points entropy, ds = points ++ entropy ∧ strategy.Drawn points s.scheduler ∧
    EntropyDrawn kw.seedRandomness entropy s.entropy
  options : s.options = kw.options

theorem reads_raise (e : PyException) : (raise e : Taped R α).Reads fun _ _ => False :=
  Taped.reads_fail _

theorem reads_changePoint (horizon : Int) : (changePoint horizon : Taped R Nat).Reads
    fun used v => ∃ d, used = [d] ∧ d.label = "pct.change" ∧ (d.bound : Int) = horizon ∧
      v = d.value := by
  cases horizon with
  | ofNat k =>
    refine (Taped.reads_draw "pct.change" k).congr fun ds v => ?_
    simp only [Int.ofNat_eq_natCast, Int.natCast_inj]
  | negSucc k =>
    refine (reads_raise _).congr fun ds v => ⟨False.elim, ?_⟩
    rintro ⟨d, _, _, hb, _⟩
    omega

theorem reads_changePoints (horizon : Int) (n : Nat) :
    (changePoints horizon n : Taped R (List Nat)).Reads fun used points =>
      used.length = n ∧ (∀ d ∈ used, d.label = "pct.change" ∧ (d.bound : Int) = horizon) ∧
        points = used.map Draw.value := by
  induction n with
  | zero =>
    refine (Taped.reads_pure []).congr fun ds points => ⟨?_, ?_⟩
    · rintro ⟨rfl, rfl⟩
      exact ⟨rfl, fun d hd => absurd hd List.not_mem_nil, rfl⟩
    · rintro ⟨hl, _, hp⟩
      obtain rfl := List.eq_nil_of_length_eq_zero hl
      exact ⟨rfl, hp⟩
  | succ n ih =>
    refine ((reads_changePoint horizon).bind fun point => ih.bind fun points =>
      Taped.reads_pure (point :: points)).congr fun ds points => ⟨?_, ?_⟩
    · rintro ⟨_, used, v, rfl, ⟨d, rfl, hl, hb, rfl⟩, points', _, vs, rfl, ⟨hn, hall, rfl⟩,
        rfl, rfl⟩
      refine ⟨by simp [hn], ?_, by simp⟩
      intro d' hd'
      rcases List.mem_cons.mp (by simpa using hd') with rfl | hd'
      · exact ⟨hl, hb⟩
      · exact hall d' hd'
    · rintro ⟨hn, hall, rfl⟩
      obtain ⟨d, used, rfl⟩ := List.exists_cons_of_length_eq_add_one hn
      have hd := hall d List.mem_cons_self
      refine ⟨[d], used, d.value, rfl, ⟨d, rfl, hd.1, hd.2, rfl⟩, used, [], used.map Draw.value,
        (List.append_nil _).symm, ⟨Nat.succ.inj hn, fun d' hd' => ?_, rfl⟩, rfl, rfl⟩
      exact hall d' (List.mem_cons_of_mem _ hd')

theorem reads_scheduler (strategy : Strategy) :
    (scheduler strategy : Taped R SchedulerState).Reads strategy.Drawn := by
  cases strategy with
  | random =>
    refine (Taped.reads_pure SchedulerState.randomWalk).congr fun ds state => ⟨?_, ?_⟩
    · rintro ⟨rfl, rfl⟩
      exact .random
    · rintro ⟨⟩
      exact ⟨rfl, rfl⟩
  | pct depth horizon =>
    refine ((reads_changePoints horizon _).bind fun points =>
      Taped.reads_pure (SchedulerState.pct points)).congr fun ds state => ⟨?_, ?_⟩
    · rintro ⟨used, _, points, rfl, ⟨hn, hall, rfl⟩, rfl, rfl⟩
      rw [List.append_nil]
      exact .pct hn hall
    · intro h
      cases h with
      | pct hn hall =>
        exact ⟨ds, [], _, (List.append_nil _).symm, ⟨hn, hall, rfl⟩, rfl, rfl⟩

theorem reads_entropySeed (seedRandomness : Bool) :
    (entropySeed seedRandomness : Taped R (Option Nat)).Reads (EntropyDrawn seedRandomness) := by
  cases seedRandomness with
  | false =>
    refine (Taped.reads_pure none).congr fun ds entropy => ⟨?_, ?_⟩
    · rintro ⟨rfl, rfl⟩
      exact .off
    · rintro ⟨⟩
      exact ⟨rfl, rfl⟩
  | true =>
    refine ((Taped.reads_draw "entropy.seed" (2 ^ 31 - 1)).bind fun seed =>
      Taped.reads_pure (some seed)).congr fun ds entropy => ⟨?_, ?_⟩
    · rintro ⟨_, _, _, rfl, ⟨d, rfl, hl, hb, rfl⟩, rfl, rfl⟩
      exact .on hl hb
    · intro h
      cases h with
      | on hl hb => exact ⟨_, [], _, rfl, ⟨_, rfl, hl, hb, rfl⟩, rfl, rfl⟩

theorem reads_checkWorld (main : Program) (world : Bool) :
    (checkWorld main world : Taped R Unit).Reads fun used _ => used = [] ∧ main.Accepts world := by
  unfold checkWorld
  cases hw : main.wantsWorld with
  | error e =>
    refine (reads_raise e).congr fun ds _ => ⟨False.elim, ?_⟩
    rintro ⟨_, wants, h, _⟩
    rw [hw] at h
    cases h
  | ok wants =>
    have haccepts : main.Accepts world ↔ (wants = true → world = true) := by
      refine ⟨?_, fun h => ⟨wants, hw, h⟩⟩
      rintro ⟨wants', h, hworld⟩
      rw [hw] at h
      exact Except.ok.inj h ▸ hworld
    cases wants with
    | false =>
      refine (Taped.reads_pure ()).congr fun ds _ => ⟨fun h => ⟨h.1, haccepts.mpr ?_⟩, ?_⟩
      · intro h
        cases h
      · exact fun h => ⟨h.1, rfl⟩
    | true =>
      cases world with
      | false =>
        refine (reads_raise _).congr fun ds _ => ⟨False.elim, fun h => ?_⟩
        cases haccepts.mp h.2 rfl
      | true =>
        exact (Taped.reads_pure ()).congr fun ds _ =>
          ⟨fun h => ⟨h.1, haccepts.mpr fun _ => rfl⟩, fun h => ⟨h.1, rfl⟩⟩

theorem reads_setUp (main : Program) (strategy : Strategy) (kw : RunKwargs) :
    (setUp main strategy kw : Taped R Setting).Reads (SettingDrawn main strategy kw) := by
  refine ((reads_scheduler strategy).bind fun state => (reads_checkWorld main _).bind fun _ =>
    (reads_entropySeed kw.seedRandomness).bind fun entropy =>
      Taped.reads_pure (⟨state, entropy, kw.options⟩ : Setting)).congr fun ds s => ⟨?_, ?_⟩
  · rintro ⟨points, _, state, rfl, hstate, _, _, _, rfl, ⟨rfl, haccepts⟩, entropy, _, v, rfl,
      hentropy, rfl, rfl⟩
    rw [List.append_nil, List.nil_append]
    exact ⟨haccepts, ⟨points, entropy, rfl, hstate, hentropy⟩, rfl⟩
  · rintro ⟨haccepts, ⟨points, entropy, rfl, hstate, hentropy⟩, hoptions⟩
    refine ⟨points, entropy, _, rfl, hstate, [], entropy, (), rfl, ⟨rfl, haccepts⟩, entropy, [], _,
      (List.append_nil _).symm, hentropy, rfl, ?_⟩
    rw [← hoptions]

/-! ### Runs that fail before the recording is used up -/

/-- What a phase's exit makes of the run's error; an interrupt makes nothing. -/
inductive Exit.Records : Exit → Option PyException → Prop where
  | returned : Records .returned none
  | raised (e : PyException) : Records (.raised e) (some e)

/-- Answered from `recorded` and refused whatever it asks beyond, the program sets up,
runs and tears down, and its own error is `error`; it never asked for `left`. -/
def Program.EndsIn (main : Program) (spec : SchedulerSpec) (kw : RunKwargs) (recorded : List Draw)
    (error : PyException) (left : List Draw) : Prop :=
  ∃ strategy setting first afterSetUp body afterBody teardown bodyError teardownError,
    resolveScheduler spec = .ok strategy ∧
    recorded = first ++ afterSetUp ∧ SettingDrawn main strategy kw first setting ∧
    (main.body setting).Follows recorded.length [] afterSetUp body afterBody ∧
    body.exit.Records bodyError ∧
    body.teardown.Follows recorded.length [] afterBody teardown left ∧
    teardown.exit.Records teardownError ∧
    ownError kw.onUnhandled bodyError teardownError teardown.unhandled = some error

theorem check_ok {x : Exit} {t t' : Tape R} {error : Option PyException}
    (h : x.check t = .ok (error, t')) : x.Records error ∧ t' = t := by
  cases x with
  | returned =>
    obtain ⟨rfl, rfl⟩ := Prod.mk.inj (Except.ok.inj h)
    exact ⟨.returned, rfl⟩
  | raised e =>
    obtain ⟨rfl, rfl⟩ := Prod.mk.inj (Except.ok.inj h)
    exact ⟨.raised e, rfl⟩
  | interrupted e => cases h

theorem Exit.Records.check {x : Exit} {error : Option PyException} (h : x.Records error)
    (t : Tape R) : x.check t = .ok (error, t) := by
  cases h <;> rfl

theorem replay_strict (recorded : List Draw) (fallbackSeed : Int) (fallback : Fallback) :
    (Tape.replay recorded .strict fallbackSeed fallback : Tape R).Strict recorded.length recorded :=
  ⟨Tape.replay_feeding recorded _ _ _, rfl, rfl⟩

theorem ownError_body {on : OnUnhandled} {error teardown : Option PyException}
    {unhandled : List String}
    (h : (ownError on error teardown unhandled).any PyException.isMisalignment = false) :
    error.any PyException.isMisalignment = false := by
  cases error with
  | none => rfl
  | some e => exact h

theorem prepareTeardown_aligned {error : Option PyException}
    (h : error.any PyException.isMisalignment = false) (t : Tape R) :
    prepareTeardown error t = .ok ((), t) := by
  rw [prepareTeardown, h]
  rfl

/-- The steps of a simulated universe that returned. -/
theorem simulate_ok {main : Program} {kw : RunKwargs} {fuel : Nat} {setting : Setting}
    {t t' : Tape R} {u : Universe} (h : simulate main kw fuel setting t = .ok (u, t'))
    (hu : u.error.any PyException.isMisalignment = false) :
    ∃ body t₁ bodyError teardown teardownError,
      (main.body setting).run fuel [] t = some (body, t₁) ∧ body.exit.Records bodyError ∧
      body.teardown.run fuel [] t₁ = some (teardown, t') ∧ teardown.exit.Records teardownError ∧
      u.error = ownError kw.onUnhandled bodyError teardownError teardown.unhandled := by
  obtain ⟨body, t₁, hbody, h⟩ := Taped.bind_ok h
  obtain ⟨bodyError, t₂, hexit, h⟩ := Taped.bind_ok h
  obtain ⟨_, t₃, hprepare, h⟩ := Taped.bind_ok h
  obtain ⟨teardown, t₄, hteardown, h⟩ := Taped.bind_ok h
  obtain ⟨teardownError, t₅, hexit', h⟩ := Taped.bind_ok h
  obtain ⟨rfl, rfl⟩ := Prod.mk.inj (Except.ok.inj h)
  obtain ⟨hrecords, rfl⟩ := check_ok hexit
  obtain ⟨hrecords', rfl⟩ := check_ok hexit'
  rw [prepareTeardown_aligned (ownError_body hu)] at hprepare
  obtain ⟨_, rfl⟩ := Prod.mk.inj (Except.ok.inj hprepare)
  exact ⟨body, _, bodyError, teardown, teardownError, Taped.process_ok hbody, hrecords,
    Taped.process_ok hteardown, hrecords', rfl⟩

/-- A strict replay stops somewhere in its recording; if it fails by itself there, the
program ends there. -/
theorem universeOf_strict {main : Program} {spec : SchedulerSpec} {kw : RunKwargs} {fuel : Nat}
    {recorded : List Draw} {t t' : Tape R} {strategy : Strategy} {u : Universe}
    (ht : t.Strict recorded.length recorded)
    (h : universeOf main spec kw fuel t = .ok ((strategy, u), t'))
    (hu : u.error.any PyException.isMisalignment = false) :
    ∃ used left, recorded = used ++ left ∧ t'.Strict recorded.length left ∧
      t'.draws = t.draws ++ used ∧
      ∀ error, u.error = some error → main.EndsIn spec kw recorded error left := by
  have hstrategy := universeOf_strategy h
  obtain ⟨strategy', t₁, hresolve, h⟩ := Taped.bind_ok h
  obtain ⟨setting, t₂, hsetup, h⟩ := Taped.bind_ok h
  obtain ⟨u', t₃, hsim, h⟩ := Taped.bind_ok h
  obtain ⟨ha, rfl⟩ := Prod.mk.inj (Except.ok.inj h)
  obtain ⟨rfl, rfl⟩ := Prod.mk.inj ha
  unfold resolve at hresolve
  rw [hstrategy] at hresolve
  obtain ⟨_, rfl⟩ := Prod.mk.inj (Except.ok.inj hresolve)
  obtain ⟨first, afterSetUp, hfirst, hdrawn, ht₂, hd₂⟩ := (reads_setUp main _ kw).sound ht hsetup
  obtain ⟨body, t₄, bodyError, teardown, teardownError, hbody, hrecords, hteardown, hrecords',
    herror⟩ := simulate_ok hsim hu
  obtain ⟨used₁, afterBody, hl₁, hfollows₁, ht₄, hd₄⟩ := Process.run_follows hbody ht₂
  obtain ⟨used₂, left, hl₂, hfollows₂, ht₃, hd₃⟩ := Process.run_follows hteardown ht₄
  refine ⟨first ++ used₁ ++ used₂, left, ?_, ht₃, ?_, fun error he => ?_⟩
  · rw [hfirst, hl₁, hl₂, List.append_assoc, List.append_assoc]
  · rw [hd₃, hd₄, hd₂, List.append_assoc, List.append_assoc, List.append_assoc]
  · exact ⟨strategy', setting, first, afterSetUp, body, afterBody, teardown, bodyError,
      teardownError, hstrategy, hfirst, hdrawn, hfollows₁, hrecords, hfollows₂, hrecords',
      herror.symm.trans he⟩

/-- A program that ends by itself is replayed to that end. -/
theorem Program.EndsIn.universeOf {main : Program} {spec : SchedulerSpec} {kw : RunKwargs}
    {recorded left : List Draw} {error : PyException} (h : main.EndsIn spec kw recorded error left)
    (he : error.isMisalignment = false) {t : Tape R} (ht : t.Strict recorded.length recorded) :
    ∃ fuel strategy u t' used, Simloom.universeOf main spec kw fuel t = .ok ((strategy, u), t') ∧
      u.error = some error ∧ recorded = used ++ left ∧ t'.draws = t.draws ++ used := by
  obtain ⟨strategy, setting, first, afterSetUp, body, afterBody, teardown, bodyError, teardownError,
    hstrategy, hfirst, hdrawn, hfollows₁, hrecords, hfollows₂, hrecords', herror⟩ := h
  have ht₀ : t.Strict recorded.length (first ++ afterSetUp) := hfirst ▸ ht
  obtain ⟨t₁, hsetup, ht₁, hd₁⟩ := (reads_setUp main strategy kw).complete hdrawn ht₀
  obtain ⟨fuel₁, t₂, used₁, hrun₁, hl₁, ht₂, hd₂⟩ := hfollows₁.run ht₁
  obtain ⟨fuel₂, t₃, used₂, hrun₂, hl₂, _, hd₃⟩ := hfollows₂.run ht₂
  have hbody : (main.body setting).run (fuel₁ + fuel₂) [] t₁ = some (body, t₂) :=
    Process.run_mono hrun₁ fuel₂
  have hteardown : body.teardown.run (fuel₁ + fuel₂) [] t₂ = some (teardown, t₃) := by
    rw [Nat.add_comm]
    exact Process.run_mono hrun₂ fuel₁
  have haligned : bodyError.any PyException.isMisalignment = false := by
    have hown : (ownError kw.onUnhandled bodyError teardownError teardown.unhandled).any
        PyException.isMisalignment = false := by
      rw [herror]
      exact he
    exact ownError_body hown
  refine ⟨fuel₁ + fuel₂, strategy, ⟨some error, teardown.log, teardown.now, teardown.coverage⟩, t₃,
    first ++ used₁ ++ used₂, ?_, rfl, ?_, ?_⟩
  · have hresolve : resolve spec t = .ok (strategy, t) := by rw [resolve, hstrategy]; rfl
    have hsim : simulate main kw (fuel₁ + fuel₂) setting t₁ =
        .ok (⟨some error, teardown.log, teardown.now, teardown.coverage⟩, t₃) := by
      rw [← herror]
      simp only [simulate, bind, StateT.bind, Except.bind, Taped.process, hbody, hteardown,
        hrecords.check, hrecords'.check, prepareTeardown_aligned haligned]
      rfl
    simp only [Simloom.universeOf, bind, StateT.bind, Except.bind, hresolve, hsetup, hsim]
    rfl
  · rw [hfirst, hl₁, hl₂, List.append_assoc, List.append_assoc]
  · rw [hd₃, hd₂, hd₁, List.append_assoc, List.append_assoc, List.append_assoc]

/-- **When a strict replay is whole.** Results that are not misalignments carry the
whole recording exactly when the program, run along it, never fails by itself with
draws of it still to come. -/
theorem strict_replay_whole_iff (main : Program) (recorded : List Draw) (spec : SchedulerSpec)
    (kw : RunKwargs) (fallbackSeed : Int) (fallback : Fallback) (R : RandomSource) :
    (∀ fuel r, replay main recorded .strict fallbackSeed fallback false spec kw fuel R = .ok r →
      r.error.any PyException.isMisalignment = false → r.tape = recorded) ↔
    ∀ error left, main.EndsIn spec kw recorded error left → error.isMisalignment = false →
      left = [] := by
  have ht : (Tape.replay recorded .strict fallbackSeed fallback : Tape R).Strict recorded.length
      recorded := replay_strict recorded fallbackSeed fallback
  constructor
  · intro h error left hends he
    obtain ⟨fuel, strategy, u, t', used, hu, herror, hrecorded, hdraws⟩ := hends.universeOf he ht
    have hwhole := h fuel _ (execute_quiet hu none) (by
      show (u.error.or _).any _ = false
      rw [herror]
      exact he)
    have hused : used = recorded := hdraws.symm.trans hwhole
    rw [hused] at hrecorded
    exact List.self_eq_append_right.mp hrecorded
  · intro h fuel r hr hmis
    obtain ⟨strategy, u, t', hu, rfl⟩ := execute_ok hr
    have hmis' : (u.error.or (leftoverError t')).any PyException.isMisalignment = false := hmis
    have haligned : u.error.any PyException.isMisalignment = false := by
      cases hue : u.error with
      | none => rfl
      | some e => rw [hue] at hmis'; exact hmis'
    obtain ⟨used, left, hrecorded, ht', hdraws, hends⟩ := universeOf_strict ht hu haligned
    have hleft : left = [] := by
      cases hue : u.error with
      | some e =>
        rw [hue] at hmis'
        exact h e left (hends e hue) hmis'
      | none =>
        -- otherwise the harness itself would have found the rest
        by_contra hne
        have hexact : t'.replayExact = false := by
          rw [← Bool.not_eq_true, ht'.feeding.replayExact]
          exact hne
        have hreplay : t'.isReplay = true := by
          rw [Tape.isReplay]
          obtain ⟨_, hs, _⟩ := ht'.feeding.recorded
          rw [hs]
          rfl
        rw [hue, leftoverError, if_pos ⟨hreplay, ht'.policy, hexact⟩] at hmis'
        cases hmis'
    show t'.draws = recorded
    rw [hdraws, hrecorded, hleft, List.append_nil]
    rfl

/-- A main that flips twice, but gives up if the first flip is tails. -/
def quitter : Program := lone <| .draw "flip" 2 fun
  | 0 => .finish (some ⟨valueError, "tails"⟩)
  | _ => .draw "flip" 2 fun _ => .finish none

/-- The draws of a run of the quitter that is tails, the loop's own among them, and one more
flip. -/
def tailsAndMore : List Draw :=
  [⟨"flip", 0, 2, Nat.two_pos⟩, ⟨"sched.pick", 0, 2, Nat.two_pos⟩,
    ⟨"sched.pick", 0, 2, Nat.two_pos⟩, ⟨"flip", 0, 2, Nat.two_pos⟩]

/-- Strictly replayed, the quitter's own error hides that it diverged from the recording:
the last flip was never asked for. -/
theorem strict_replay_hides_divergence :
    ∃ r, replay quitter tailsAndMore .strict 0 .rng false .unspecified .default 5 zeroSource = .ok r ∧
      r.error = some ⟨valueError, "tails"⟩ ∧ r.error.any PyException.isMisalignment = false ∧
      r.tape ≠ tailsAndMore :=
  ok_of_computed (by decide +kernel)

end Simloom
