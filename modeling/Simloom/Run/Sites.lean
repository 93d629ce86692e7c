import Simloom.Loop.SimLoop
import Simloom.Net.Datagram
import Simloom.Run.Pct
import Simloom.World.Disk
import Simloom.Tape.Session

/-! Where a run draws.

The scheduler, the links, the disks, the seeding of entropy, fault points and the program
itself all ask the one tape, each with bounds of its own. A choice among one is no choice.
The tape takes any positive bound, so it is left to each site not to ask then: a run records
only real choices exactly if none of its uses of the tape is `Forced`, and only three sites
can be. -/
namespace Simloom
open World (SimDisk Content)
variable {R : RandomSource} {α β J : Type}

/-! ### Asking -/

/-- What asks the tape. A refusal is raised, and leaves the tape as it was then. -/
abbrev Asking (R : RandomSource) := ExceptT TapeError (StateM (Tape R))

def ask (label : String) (bound : Nat) : Asking R (Fin bound) := fun t =>
  match t.draw label bound with
  | .ok (v, u) => (.ok v, u)
  | .error e => (.error e, t)

/-- What is not asked for is not looked at. -/
def unasked {n : Nat} : Fin (n + 1) := ⟨0, n.succ_pos⟩

/-- `percent and tape.draw(label, 100)`. -/
def askPercent (label : String) (percent : Nat) : Asking R (Fin 100) :=
  if percent = 0 then pure unasked else ask label 100

/-! ### The sites -/

/-- The change points of `_PCT.__init__`. -/
def askChangePoints (horizon : Int) : Nat → Asking R (List Nat)
  | 0 => pure []
  | n + 1 => do
    let point ← ask "pct.change" horizon.toNat
    let points ← askChangePoints horizon n
    return point.val :: points

/-- The draws of `_draw_delay`. -/
def askDelay (loss : Nat) : Asking R (Fin 64 × Fin 100) := do
  let step ← ask "net.delay" 64
  let lost ← askPercent "net.loss" loss
  return (step, lost)

/-- A copy of a datagram: its delay, and whether it is held back. -/
def askCopy (reorder : Nat) : Asking R (Fin 64 × Fin 100) := do
  let step ← ask "udp.delay" 64
  let held ← askPercent "udp.reorder" reorder
  return (step, held)

/-- The draws of `_route_datagram`. -/
def askDatagram (f : DatagramFaults) : Asking R DatagramDraws := do
  let loss ← askPercent "udp.loss" f.loss
  if loss.val < f.loss then return ⟨loss, unasked, (unasked, unasked), (unasked, unasked)⟩
  else
    let duplication ← askPercent "udp.dup" f.duplication
    let first ← askCopy f.reorder
    let second ← (if duplication.val < f.duplication then askCopy f.reorder
      else pure (unasked, unasked))
    return ⟨loss, duplication, first, second⟩

/-- The fate of a buffered write, or of a deletion. -/
def askFate : Option Content → Asking R Unit
  | none => do
    let _ ← ask "disk.fate" 2
  | some data => do
    let fate ← ask "disk.fate" 3
    if fate.val = 1 ∧ data.length > 1 then
      let _ ← ask "disk.tear" (data.length - 1)

def askFates : List (Option Content) → Asking R Unit
  | [] => pure ()
  | data :: rest => do
    askFate data
    askFates rest

/-- `sometimes`; a percentage that is none raises before it draws. -/
def sometimes (label : String) (percent : Int) : Asking R (Except PyException Bool) :=
  if 0 ≤ percent ∧ percent ≤ 100 then do
    let v ← ask ("buggify." ++ label) 100
    return .ok ((v.val : Int) < percent)
  else return .error ⟨valueError, "percent must be in [0, 100]"⟩

/-- The buffered operations of a disk, in the order of a power cut. -/
def World.SimDisk.operations (d : SimDisk) : List (Option Content) :=
  (d.buffered.keys.insertionSort (· ≤ ·)).map fun path => (d.buffered.get? path).getD none

/-! ### Runs -/

/-- What uses the tape, with all that its requests depend on. `draw` is `simloom.draw`, and what
a scheduler of the user's own asks. -/
inductive Use (J : Type) where
  | newPct (depth horizon : Int)
  | pickRandom (first : Handle J) (rest : List (Handle J))
  | pickPct (s : Pct) (entities : List Int)
  | seedEntropy
  | chunk (s : Shaping) (src dst : String)
  | datagram (f : DatagramFaults)
  | powerCut (d : SimDisk)
  | sometimes (label : String) (percent : Int)
  | draw (label : String) (bound : Int)
  | forceFallback

/-- The tape afterwards, also when it refuses. -/
def Use.on : Use J → Tape R → Tape R
  | .newPct depth horizon, t => (askChangePoints horizon (depth - 1).toNat t).2
  | .pickRandom first rest, t => (randomWalk.pick first rest () t).2.2
  | .pickPct s entities, t => (s.pick t entities).2.2
  | .seedEntropy, t => (ask "entropy.seed" (2 ^ 31 - 1) t).2
  | .chunk s src dst, t => (askDelay (s.effectiveLoss src dst) t).2
  | .datagram f, t => (askDatagram f t).2
  | .powerCut d, t => (askFates d.operations t).2
  | .sometimes label percent, t => (Simloom.sometimes label percent t).2
  | .draw label bound, t => (ask label bound.toNat t).2
  | .forceFallback, t => t.forceFallback

/-- Any number of uses, in any order. One that is refused may be followed by more. -/
def play (t : Tape R) : List (Use J) → Tape R
  | [] => t
  | use :: rest => play (use.on t) rest

/-! ### The sites are those of the model -/

theorem Asking.bind_eq (x : Asking R α) (f : α → Asking R β) (t : Tape R) :
    (x >>= f) t = match x t with
      | (.ok a, u) => f a u
      | (.error e, u) => (.error e, u) := by
  show ExceptT.bindCont f (x t).1 (x t).2 = _
  rcases x t with ⟨_ | _, u⟩ <;> rfl

/-- What is made of the answer leaves the tape alone. -/
theorem Asking.map_tape (x : Asking R α) (f : α → β) (t : Tape R) :
    ((x >>= fun a => pure (f a) : Asking R β) t).2 = (x t).2 := by
  rw [bind_eq]
  rcases x t with ⟨_ | _, u⟩ <;> rfl

theorem Taped.draw_ask {label : String} {bound v : Nat} {t u : Tape R}
    (h : draw label bound t = .ok (v, u)) : ∃ w, ask label bound t = (.ok w, u) ∧ w.val = v := by
  unfold draw at h
  unfold ask
  cases hd : t.draw label bound with
  | error e => rw [hd] at h; cases h
  | ok got =>
    rw [hd] at h
    obtain ⟨rfl, rfl⟩ := Prod.mk.inj (Except.ok.inj h)
    exact ⟨got.1, rfl, rfl⟩

/-- A power cut asks for the fates of the disk's operations. -/
theorem fate_asks (synced : Theory.Dict World.Path Content) (path : World.Path)
    (data : Option Content) (t : Tape R) : (SimDisk.fate synced path data t).map Prod.snd =
      (askFate data t).1.map fun _ => (askFate data t).2 := by
  cases data with
  | none =>
    simp only [SimDisk.fate, askFate, Asking.bind_eq, ask]
    cases t.draw "disk.fate" 2 <;> rfl
  | some content =>
    simp only [SimDisk.fate, askFate, Asking.bind_eq, ask]
    cases t.draw "disk.fate" 3 with
    | error e => rfl
    | ok got =>
      obtain ⟨fate, u⟩ := got
      by_cases htorn : fate.val = 1 ∧ content.length > 1
      · simp only [if_pos htorn, Asking.bind_eq, ask]
        simp only [bind, Except.bind, if_pos htorn]
        cases u.draw "disk.tear" (content.length - 1) <;> rfl
      · simp only [bind, Except.bind, if_neg htorn]
        split <;> rfl

theorem fates_asks (synced : Theory.Dict World.Path Content)
    (buffered : Theory.Dict World.Path (Option Content)) (paths : List World.Path) (t : Tape R) :
    (SimDisk.fates synced buffered paths t).2 =
      (askFates (paths.map fun path => (buffered.get? path).getD none) t).1.map fun _ =>
        (askFates (paths.map fun path => (buffered.get? path).getD none) t).2 := by
  induction paths generalizing synced t with
  | nil => rfl
  | cons path rest ih =>
    have hfirst := fate_asks synced path ((buffered.get? path).getD none) t
    rw [SimDisk.fates, List.map_cons, askFates, Asking.bind_eq]
    rcases hfate : (askFate ((buffered.get? path).getD none) t : Except TapeError Unit × Tape R)
      with ⟨e | _, u⟩
    · rw [hfate] at hfirst
      cases hf : SimDisk.fate synced path ((buffered.get? path).getD none) t with
      | error e' => rw [hf] at hfirst; exact hfirst
      | ok got => rw [hf] at hfirst; cases hfirst
    · rw [hfate] at hfirst
      cases hf : SimDisk.fate synced path ((buffered.get? path).getD none) t with
      | error e' => rw [hf] at hfirst; cases hfirst
      | ok got =>
        rw [hf] at hfirst
        have hu : got.2 = u := Except.ok.inj hfirst
        subst hu
        exact ih got.1 got.2

theorem powerCut_asks (d : SimDisk) (t : Tape R) : (d.powerCut t).2 =
    (askFates d.operations t).1.map fun _ => (askFates d.operations t).2 := by
  have hfates := fates_asks d.synced d.buffered (d.buffered.keys.insertionSort (· ≤ ·)) t
  unfold SimDisk.powerCut
  rcases hf : SimDisk.fates d.synced d.buffered (d.buffered.keys.insertionSort (· ≤ ·)) t
    with ⟨synced, e | u⟩ <;> rw [hf] at hfates <;> exact hfates

/-- A PCT scheduler that is constructed has asked for its change points. -/
theorem changePoints_asks {horizon : Int} {n : Nat} {t u : Tape R} {points : List Nat}
    (h : changePoints horizon n t = .ok (points, u)) :
    askChangePoints horizon n t = (.ok points, u) := by
  induction n generalizing t points with
  | zero =>
    obtain ⟨rfl, rfl⟩ := Prod.mk.inj (Except.ok.inj h)
    rfl
  | succ n ih =>
    obtain ⟨point, t₁, hpoint, h⟩ := Taped.bind_ok h
    obtain ⟨rest, t₂, hrest, h⟩ := Taped.bind_ok h
    obtain ⟨rfl, rfl⟩ := Prod.mk.inj (Except.ok.inj h)
    have hask : ∃ v, ask "pct.change" horizon.toNat t = (.ok v, t₁) ∧ v.val = point := by
      cases horizon with
      | negSucc k => cases hpoint
      | ofNat k => exact Taped.draw_ask hpoint
    obtain ⟨v, hv, rfl⟩ := hask
    simp only [askChangePoints, Asking.bind_eq, hv, ih hrest]
    rfl

/-! ### Every execution is a run -/

/-- What the phase does to its tape is a run. -/
def Taped.Plays (J : Type) (x : Taped R α) : Prop :=
  ∀ t a u, x t = .ok (a, u) → ∃ uses : List (Use J), u = play t uses

theorem play_append (t : Tape R) (uses later : List (Use J)) :
    play t (uses ++ later) = play (play t uses) later := by
  induction uses generalizing t with
  | nil => rfl
  | cons use rest ih => exact ih (use.on t)

namespace Taped

theorem plays_pure (a : α) : Plays J (pure a : Taped R α) := by
  intro t b u h
  obtain ⟨-, rfl⟩ := Prod.mk.inj (Except.ok.inj h)
  exact ⟨[], rfl⟩

theorem plays_fail (e : Halt) : Plays J (fail e : Taped R α) := fun _ _ _ h => by cases h

theorem Plays.bind {x : Taped R α} {f : α → Taped R β} (hx : x.Plays J)
    (hf : ∀ a, (f a).Plays J) : (x >>= f).Plays J := by
  intro t b v h
  obtain ⟨a, u, ha, hb⟩ := bind_ok h
  obtain ⟨uses, rfl⟩ := hx t a u ha
  obtain ⟨later, rfl⟩ := hf a _ b v hb
  exact ⟨uses ++ later, (play_append t uses later).symm⟩

/-- The requests of a program are uses, refused or not. -/
theorem plays_process (p : Process α) (fuel : Nat) : Plays J (process p fuel : Taped R α) := by
  intro t a u h
  have hon (t : Tape R) (label : String) (bound : Nat) :
      (Use.draw label bound : Use J).on t = (ask label bound t).2 := rfl
  unfold ask at hon
  refine Process.run_induct (motive := fun _ _ t => ∃ uses : List (Use J), u = play t uses)
    ?_ ?_ ?_ (process_ok h)
  · exact fun _ _ _ => ⟨[], rfl⟩
  · rintro _ _ t label bound v w _ hd ⟨uses, hu⟩
    have hw := hon t label bound
    rw [hd] at hw
    exact ⟨.draw label bound :: uses, by rw [play, hw]; exact hu⟩
  · rintro _ _ t label bound e _ hd ⟨uses, hu⟩
    have ht := hon t label bound
    rw [hd] at ht
    exact ⟨.draw label bound :: uses, by rw [play, ht]; exact hu⟩

theorem plays_prepareTeardown (error : Option PyException) :
    Plays J (prepareTeardown error : Taped R Unit) := by
  intro t a u h
  obtain ⟨-, rfl⟩ := Prod.mk.inj (Except.ok.inj h)
  split
  · exact ⟨[.forceFallback], rfl⟩
  · exact ⟨[], rfl⟩

theorem plays_check (x : Exit) : Plays J (x.check : Taped R (Option PyException)) := by
  cases x with
  | returned => exact plays_pure _
  | raised e => exact plays_pure _
  | interrupted e => exact plays_fail _

theorem plays_scheduler (strategy : Strategy) :
    Plays J (scheduler strategy : Taped R SchedulerState) := by
  cases strategy with
  | random => exact plays_pure _
  | pct depth horizon =>
    refine Plays.bind (fun t points u h => ?_) fun _ => plays_pure _
    have hon : (Use.newPct depth horizon : Use J).on t = u := by
      rw [Use.on, changePoints_asks h]
    exact ⟨[.newPct depth horizon], hon.symm⟩

theorem plays_entropySeed (seedRandomness : Bool) :
    Plays J (entropySeed seedRandomness : Taped R (Option Nat)) := by
  cases seedRandomness with
  | false => exact plays_pure _
  | true =>
    refine Plays.bind (fun t seed u h => ?_) fun _ => plays_pure _
    obtain ⟨v, hv, -⟩ := draw_ask h
    have hon : (Use.seedEntropy : Use J).on t = u := by rw [Use.on, hv]
    exact ⟨[.seedEntropy], hon.symm⟩

theorem plays_checkWorld (main : Program) (world : Bool) :
    Plays J (checkWorld main world : Taped R Unit) := by
  unfold checkWorld
  split
  · exact plays_fail _
  · split
    · exact plays_fail _
    · exact plays_pure _

theorem plays_resolve (spec : SchedulerSpec) : Plays J (resolve spec : Taped R Strategy) := by
  unfold resolve
  split
  · exact plays_pure _
  · exact plays_fail _

theorem plays_universeOf (main : Program) (spec : SchedulerSpec) (kw : RunKwargs) (fuel : Nat) :
    Plays J (universeOf main spec kw fuel : Taped R (Strategy × Universe)) := by
  refine (plays_resolve spec).bind fun strategy => Plays.bind ?_ fun setting => ?_
  · refine (plays_scheduler strategy).bind fun _ => (plays_checkWorld main _).bind fun _ => ?_
    exact (plays_entropySeed _).bind fun _ => plays_pure _
  · refine Plays.bind ?_ fun u => plays_pure _
    refine (plays_process _ fuel).bind fun body => (plays_check body.exit).bind fun error => ?_
    refine (plays_prepareTeardown error).bind fun _ => (plays_process _ fuel).bind fun teardown => ?_
    exact (plays_check teardown.exit).bind fun _ => plays_pure _

end Taped

/-- Whatever is executed, the tape of the result is that of a run. -/
theorem execute_plays {main : Program} {t : Tape R} {seed : Option Int} {raiseOnError : Bool}
    {spec : SchedulerSpec} {kw : RunKwargs} {fuel : Nat} {r : RunResult}
    (h : execute main t seed raiseOnError spec kw fuel = .ok r) :
    ∃ uses : List (Use J), r.tape = (play t uses).draws := by
  obtain ⟨strategy, u, t', hu, rfl⟩ := execute_ok h
  obtain ⟨uses, huses⟩ := Taped.plays_universeOf (J := J) main spec kw fuel t _ _ hu
  exact ⟨uses, congrArg Tape.draws huses⟩

/-! ### Forced choices -/

namespace Tape

/-- The tape does not refuse the request: it improvises, may begin to, or has recorded it next. -/
def Answers (t : Tape R) (label : String) (bound : Nat) : Prop :=
  t.recorded = none ∨ t.misalignedAt.isSome = true ∨ t.policy = .fallback ∨
    ∃ recorded d, t.recorded = some recorded ∧ recorded[t.position]? = some d ∧
      d.label = label ∧ d.bound = bound

/-- A power cut tears a write of two bytes: there is one place to cut, and it is drawn. -/
def Halves (t : Tape R) : List (Option Content) → Prop
  | [] => False
  | data :: rest =>
    (∃ content u, data = some content ∧ content.length = 2 ∧
      ask "disk.fate" 3 t = (.ok 1, u) ∧ u.Answers "disk.tear" 1) ∨
    ∃ u, askFate data t = (.ok (), u) ∧ Halves u rest

end Tape

/-- The use is left a choice among one, and the tape records it. -/
def Use.Forced : Use J → Tape R → Prop
  | .newPct depth horizon, t => 2 ≤ depth ∧ horizon = 1 ∧ t.Answers "pct.change" 1
  | .powerCut d, t => t.Halves d.operations
  | .draw label bound, t => bound = 1 ∧ t.Answers label 1
  | _, _ => False

/-- No use along the run is forced. -/
def Unforced (t : Tape R) : List (Use J) → Prop
  | [] => True
  | use :: rest => ¬ use.Forced t ∧ Unforced (use.on t) rest

/-! ### What a request adds -/

namespace Tape
variable {t u v : Tape R} {p q : Prop} {label : String} {bound : Nat}

/-- Up to `u` only real choices are recorded, unless `forced`. -/
def Adds (t u : Tape R) (forced : Prop) : Prop :=
  ∃ ds, u.draws = t.draws ++ ds ∧ ((∀ d ∈ ds, 2 ≤ d.bound) ↔ ¬forced)

theorem adds_of_draws (h : u.draws = t.draws) : t.Adds u False :=
  ⟨[], by simp [h], by simp⟩

theorem Adds.trans (h : t.Adds u p) (h' : u.Adds v q) : t.Adds v (p ∨ q) := by
  obtain ⟨ds, hds, hp⟩ := h
  obtain ⟨ds', hds', hq⟩ := h'
  refine ⟨ds ++ ds', by rw [hds', hds, List.append_assoc], ?_⟩
  rw [not_or, ← hp, ← hq]
  simp only [List.mem_append, or_imp, forall_and]

theorem Adds.congr (h : t.Adds u p) (hpq : p ↔ q) : t.Adds u q := by
  obtain ⟨ds, hds, hp⟩ := h
  exact ⟨ds, hds, by rw [hp, hpq]⟩

theorem draw_adds {n : Fin bound} (h : t.draw label bound = .ok (n, u)) : t.Adds u (bound = 1) := by
  refine ⟨_, (draw_ok h).1, ?_⟩
  have hn := n.isLt
  simp only [List.mem_singleton, forall_eq, Draw.answer]
  omega

theorem diverge_isOk (t : Tape R) (detail : Divergence) (f : Tape R → α) :
    ((t.diverge detail).map f).isOk = true ↔ t.policy = .fallback := by
  unfold diverge
  cases t.policy <;> simp [Except.map, Except.isOk, Except.toBool]

theorem nextValue_isOk (t : Tape R) (label : String) (hb : 0 < bound) :
    (t.nextValue label bound hb).isOk = true ↔ t.Answers label bound := by
  unfold nextValue Answers
  cases t.recorded with
  | none => simp [Except.isOk, Except.toBool]
  | some recorded =>
    by_cases hm : t.misalignedAt.isSome = true
    · simp [hm, Except.isOk, Except.toBool]
    · cases hd : recorded[t.position]? with
      | none => simp [hm, hd, diverge_isOk]
      | some d =>
        by_cases hmatch : d.label = label ∧ d.bound = bound
        · simp [hm, hd, hmatch, Except.isOk, Except.toBool]
        · simp [hm, hd, hmatch, diverge_isOk]

theorem draw_isOk (t : Tape R) (label : String) (hb : 0 < bound) :
    (t.draw label bound).isOk = true ↔ t.Answers label bound := by
  rw [← nextValue_isOk t label hb, draw, dif_pos hb]
  cases t.nextValue label bound hb <;> simp [Except.map, Except.isOk, Except.toBool]

end Tape

namespace Asking

theorem ask_cases (label : String) (bound : Nat) (t : Tape R) :
    (∃ v u, ask label bound t = (.ok v, u) ∧ t.Answers label bound ∧ t.Adds u (bound = 1)) ∨
      (∃ e, ask label bound t = (.error e, t)) ∧ (0 < bound → ¬ t.Answers label bound) := by
  unfold ask
  cases hd : t.draw label bound with
  | ok got => exact .inl ⟨got.1, got.2, rfl,
      (t.draw_isOk label (Nat.pos_of_ne_zero fun h => by subst h; exact got.1.elim0)).mp (by rw [hd]; rfl),
      Tape.draw_adds hd⟩
  | error e =>
    refine .inr ⟨⟨e, rfl⟩, fun hb hanswers => ?_⟩
    have hok := (t.draw_isOk label hb).mpr hanswers
    rw [hd] at hok
    cases hok

theorem ask_adds (label : String) (bound : Nat) (t : Tape R) :
    t.Adds (ask label bound t).2 (bound = 1 ∧ t.Answers label 1) := by
  obtain ⟨v, u, hask, hanswers, hadds⟩ | ⟨⟨e, hask⟩, hrefused⟩ := ask_cases label bound t
  · rw [hask]
    refine hadds.congr ⟨fun h => ?_, And.left⟩
    subst h
    exact ⟨rfl, hanswers⟩
  · rw [hask]
    refine (Tape.adds_of_draws rfl).congr ⟨False.elim, fun h => ?_⟩
    obtain ⟨rfl, hanswers⟩ := h
    exact hrefused Nat.one_pos hanswers

/-! ### Sites that choose -/

/-- Whatever the tape, no request is forced. -/
def Chooses (x : Asking R α) : Prop := ∀ t : Tape R, t.Adds (x t).2 False

theorem chooses_pure (a : α) : Chooses (pure a : Asking R α) := fun _ => Tape.adds_of_draws rfl

theorem chooses_ask (label : String) {bound : Nat} (h : bound ≠ 1) :
    Chooses (ask label bound : Asking R (Fin bound)) :=
  fun t => (ask_adds label bound t).congr (by simp [h])

theorem Chooses.bind {x : Asking R α} {f : α → Asking R β} (hx : x.Chooses)
    (hf : ∀ a, (f a).Chooses) : (x >>= f).Chooses := by
  intro t
  have ht := hx t
  rw [bind_eq]
  rcases hxt : x t with ⟨_ | a, u⟩
  · rwa [hxt] at ht
  · rw [hxt] at ht
    exact (ht.trans (hf a u)).congr (or_self_iff)

theorem chooses_ite {c : Prop} [Decidable c] {x y : Asking R α} (hx : x.Chooses) (hy : y.Chooses) :
    Chooses (if c then x else y) := by
  split
  · exact hx
  · exact hy

theorem chooses_askPercent (label : String) (percent : Nat) :
    Chooses (askPercent label percent : Asking R (Fin 100)) :=
  chooses_ite (chooses_pure _) (chooses_ask label (by decide))

theorem chooses_askDelay (loss : Nat) : Chooses (askDelay loss : Asking R (Fin 64 × Fin 100)) :=
  (chooses_ask _ (by decide)).bind fun _ => (chooses_askPercent _ loss).bind fun _ =>
    chooses_pure _

theorem chooses_askCopy (reorder : Nat) :
    Chooses (askCopy reorder : Asking R (Fin 64 × Fin 100)) :=
  (chooses_ask _ (by decide)).bind fun _ => (chooses_askPercent _ reorder).bind fun _ =>
    chooses_pure _

theorem chooses_askDatagram (f : DatagramFaults) :
    Chooses (askDatagram f : Asking R DatagramDraws) := by
  refine (chooses_askPercent _ f.loss).bind fun loss => chooses_ite (chooses_pure _) ?_
  refine (chooses_askPercent _ f.duplication).bind fun duplication => ?_
  refine (chooses_askCopy f.reorder).bind fun first => ?_
  have hsecond : Chooses (if duplication.val < f.duplication then askCopy f.reorder
      else pure (unasked, unasked) : Asking R (Fin 64 × Fin 100)) :=
    chooses_ite (chooses_askCopy f.reorder) (chooses_pure _)
  exact hsecond.bind fun _ => chooses_pure _

theorem chooses_sometimes (label : String) (percent : Int) :
    Chooses (sometimes label percent : Asking R (Except PyException Bool)) :=
  chooses_ite ((chooses_ask _ (by decide)).bind fun _ => chooses_pure _) (chooses_pure _)

end Asking

/-! ### Schedulers -/

/-- The default strategy asks only when there is a choice. -/
theorem randomWalk_adds (first : Handle J) (rest : List (Handle J)) (t : Tape R) :
    t.Adds (randomWalk.pick first rest () t).2.2 False := by
  cases rest with
  | nil => exact Tape.adds_of_draws rfl
  | cons next rest =>
    have hchoice : (next :: rest).length + 1 ≠ 1 := by simp
    have hask := Asking.chooses_ask "sched.pick" hchoice t
    unfold ask at hask
    simp only [randomWalk, List.isEmpty_cons, Bool.false_eq_true, if_false]
    cases hd : t.draw "sched.pick" ((next :: rest).length + 1) <;> simpa only [hd] using hask

namespace Pct

theorem priority_adds (s : Pct) (t : Tape R) (entity : Int) :
    t.Adds (s.priority t entity).2.2 False := by
  unfold priority
  cases s.priorities.get? entity with
  | some found => exact Tape.adds_of_draws rfl
  | none =>
    cases hd : t.draw "pct.prio" 1024 with
    | error e => exact Tape.adds_of_draws rfl
    | ok got => exact (Tape.draw_adds hd).congr (by decide)

theorem rank_adds (s : Pct) (t : Tape R) (entities : List Int) :
    t.Adds (s.rank t entities).2.2 False := by
  induction entities generalizing s t with
  | nil => exact Tape.adds_of_draws rfl
  | cons entity rest ih =>
    have hfirst := s.priority_adds t entity
    rw [rank]
    rcases hp : s.priority t entity with ⟨_ | found, s₁, t₁⟩
    · simpa only [hp] using hfirst
    · rw [hp] at hfirst
      have hrest := (hfirst.trans (ih s₁ t₁)).congr or_self_iff
      rcases hr : s₁.rank t₁ rest with ⟨_ | ps, s₂, t₂⟩ <;> simpa only [hr] using hrest

theorem pick_adds (s : Pct) (t : Tape R) (entities : List Int) :
    t.Adds (s.pick t entities).2.2 False := by
  have hcompete : t.Adds (s.compete t entities).2.2 False := by
    have hrank := s.rank_adds t entities
    unfold compete
    split
    · exact Tape.adds_of_draws rfl
    · rcases hr : s.rank t entities with ⟨_ | ps, s', t'⟩ <;> simpa only [hr] using hrank
  unfold pick
  rcases hc : s.compete t entities with ⟨_ | index, s', t'⟩ <;> simpa only [hc] using hcompete

end Pct

/-! ### Sites that may not -/

theorem askChangePoints_adds (horizon : Int) (n : Nat) (t : Tape R) :
    t.Adds (askChangePoints horizon n t).2 (0 < n ∧ horizon = 1 ∧ t.Answers "pct.change" 1) := by
  have hone : horizon.toNat = 1 ↔ horizon = 1 := by omega
  induction n generalizing t with
  | zero => exact (Tape.adds_of_draws rfl).congr (by simp)
  | succ n ih =>
    rw [askChangePoints, Asking.bind_eq]
    obtain ⟨v, u, hask, hanswers, hadds⟩ | ⟨⟨e, hask⟩, hrefused⟩ :=
      Asking.ask_cases "pct.change" horizon.toNat t
    · -- the first point tells: the ones after it have the same bound
      simp only [hask, Asking.map_tape]
      refine (hadds.trans (ih u)).congr ⟨fun h => ?_, fun h => .inl (hone.mpr h.2.1)⟩
      have hhorizon : horizon = 1 := h.elim hone.mp fun h => h.2.1
      subst hhorizon
      exact ⟨Nat.succ_pos n, rfl, hanswers⟩
    · simp only [hask]
      refine (Tape.adds_of_draws rfl).congr ⟨False.elim, fun h => ?_⟩
      obtain ⟨-, rfl, hanswers⟩ := h
      exact hrefused Nat.one_pos hanswers

theorem askFate_adds (data : Option Content) (t : Tape R) :
    t.Adds (askFate data t).2 (∃ content u, data = some content ∧ content.length = 2 ∧
      ask "disk.fate" 3 t = (.ok 1, u) ∧ u.Answers "disk.tear" 1) := by
  cases data with
  | none =>
    have hfate := Asking.chooses_ask "disk.fate" (by decide : 2 ≠ 1) t
    rw [askFate, Asking.map_tape]
    exact hfate.congr (by simp)
  | some content =>
    have hfate := Asking.chooses_ask "disk.fate" (by decide : 3 ≠ 1) t
    rw [askFate, Asking.bind_eq]
    rcases hask : (ask "disk.fate" 3 t : Except TapeError (Fin 3) × Tape R) with ⟨e | fate, u⟩
    · rw [hask] at hfate
      refine hfate.congr ⟨False.elim, ?_⟩
      rintro ⟨_, _, -, -, hone, -⟩
      cases (Prod.mk.inj hone).1
    · rw [hask] at hfate
      by_cases htorn : fate.val = 1 ∧ content.length > 1
      · have hfate1 : fate = 1 := Fin.ext htorn.1
        have htear := Asking.ask_adds "disk.tear" (content.length - 1) u
        simp only [if_pos htorn, Asking.map_tape]
        refine (hfate.trans htear).congr ⟨fun h => ?_, fun h => ?_⟩
        · obtain ⟨hlength, hanswers⟩ := h.resolve_left id
          exact ⟨content, u, rfl, by omega, by rw [← hfate1], hanswers⟩
        · obtain ⟨_, u', hcontent, hlength, hone, hanswers⟩ := h
          rw [← Option.some.inj hcontent] at hlength
          rw [← (Prod.mk.inj hone).2] at hanswers
          exact .inr ⟨by omega, hanswers⟩
      · simp only [if_neg htorn]
        refine hfate.congr ⟨False.elim, ?_⟩
        rintro ⟨_, _, hcontent, hlength, hone, -⟩
        rw [← Option.some.inj hcontent] at hlength
        rw [Except.ok.inj (Prod.mk.inj hone).1] at htorn
        exact htorn ⟨rfl, by omega⟩

theorem askFates_adds (operations : List (Option Content)) (t : Tape R) :
    t.Adds (askFates operations t).2 (t.Halves operations) := by
  induction operations generalizing t with
  | nil => exact Tape.adds_of_draws rfl
  | cons data rest ih =>
    have hfirst := askFate_adds data t
    rw [askFates, Asking.bind_eq]
    rcases hfate : (askFate data t : Except TapeError Unit × Tape R) with ⟨e | _, u⟩
    · rw [hfate] at hfirst
      refine hfirst.congr ⟨.inl, fun h => h.resolve_right ?_⟩
      rintro ⟨_, hok, -⟩
      rw [hfate] at hok
      cases hok
    · rw [hfate] at hfirst
      refine (hfirst.trans (ih u)).congr (or_congr_right ⟨fun h => ⟨u, hfate, h⟩, ?_⟩)
      rintro ⟨u', hok, h⟩
      rw [hfate] at hok
      rwa [(Prod.mk.inj hok).2]

/-! ### A run -/

theorem Use.on_adds (use : Use J) (t : Tape R) : t.Adds (use.on t) (use.Forced t) := by
  cases use with
  | newPct depth horizon =>
    exact (askChangePoints_adds horizon _ t).congr (and_congr_left' (by omega))
  | pickRandom first rest => exact randomWalk_adds first rest t
  | pickPct s entities => exact s.pick_adds t entities
  | seedEntropy => exact Asking.chooses_ask "entropy.seed" (by decide) t
  | chunk s src dst => exact Asking.chooses_askDelay _ t
  | datagram f => exact Asking.chooses_askDatagram f t
  | powerCut d => exact askFates_adds d.operations t
  | sometimes label percent => exact Asking.chooses_sometimes label percent t
  | draw label bound =>
    exact (Asking.ask_adds label bound.toNat t).congr (and_congr_left' (by omega))
  | forceFallback => exact Tape.adds_of_draws t.forceFallback_draws

theorem play_adds (uses : List (Use J)) (t : Tape R) : t.Adds (play t uses) (¬ Unforced t uses) := by
  induction uses generalizing t with
  | nil => exact (Tape.adds_of_draws rfl).congr (by simp [Unforced])
  | cons use rest ih =>
    refine ((use.on_adds t).trans (ih _)).congr ?_
    rw [Unforced, not_and_or, not_not]

/-- Whatever uses the tape, and however the tape came to be: every recorded draw is a choice
among two at least, with a value in range, exactly if no use on the way was forced. -/
theorem recorded_iff (m : Mode) (uses : List (Use J)) :
    (∀ d ∈ (play (m.tape R) uses).draws, 2 ≤ d.bound ∧ d.value < d.bound) ↔
      Unforced (m.tape R) uses := by
  obtain ⟨ds, hds, hchoices⟩ := play_adds uses (m.tape R)
  rw [hds, m.tape_draws, List.nil_append, ← not_not (a := Unforced _ _), ← hchoices]
  exact forall₂_congr fun d _ => and_iff_left d.value_lt

/-- A scheduler with a horizon of one, and a write of two bytes that a power cut tears. -/
example : (play (Tape.replay [⟨"pct.change", 0, 1, Nat.one_pos⟩, ⟨"disk.fate", 1, 3, by decide⟩]
      .fallback 0 .zero : Tape zeroSource)
      [(.newPct 2 1 : Use Unit), .powerCut (SimDisk.blank.write "f" [1, 2])]).draws =
    [⟨"pct.change", 0, 1, Nat.one_pos⟩, ⟨"disk.fate", 1, 3, by decide⟩,
      ⟨"disk.tear", 0, 1, Nat.one_pos⟩] := by
  decide +kernel

/-- A program that draws from a range of one. -/
theorem records_forced :
    (play (Mode.tape zeroSource (.generate 0)) [(.draw "x" 1 : Use Unit)]).draws =
        [⟨"x", 0, 1, Nat.one_pos⟩] ∧
      ¬ ∀ d ∈ (play (Mode.tape zeroSource (.generate 0)) [(.draw "x" 1 : Use Unit)]).draws,
        2 ≤ d.bound ∧ d.value < d.bound := by
  decide

end Simloom
