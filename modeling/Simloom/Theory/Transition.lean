import Mathlib.Logic.Basic
import Mathlib.Data.List.Basic

/-! Deterministic transition systems.

A system is a partial step on a state and an event; a run follows a list of events
as long as each is enabled. What every step keeps, under a condition on the steps,
every run keeps (`Keeps.run`), and where each step of a concrete system is a run of
an abstract one, so is each run (`reaches_run`). -/
namespace Simloom.Theory.Transition
variable {σ ε τ ι : Type}

section Run
variable (step : σ → ε → Option σ)

/-- Follow the events; `none` if one of them is not enabled. -/
def run (s : σ) : List ε → Option σ
  | [] => some s
  | e :: rest => (step s e).bind fun s' => run s' rest

/-- Every step of the run meets the condition. -/
def Along (P : σ → ε → Prop) (s : σ) : List ε → Prop
  | [] => True
  | e :: rest => P s e ∧ ∀ s', step s e = some s' → Along P s' rest

/-- Every step that meets the condition keeps the invariant. -/
def Keeps (P : σ → ε → Prop) (I : σ → Prop) : Prop :=
  ∀ s e s', P s e → I s → step s e = some s' → I s'

end Run

variable {step : σ → ε → Option σ} {P Q : σ → ε → Prop} {I : σ → Prop}

theorem run_cons {s s' : σ} {e : ε} {rest : List ε} :
    run step s (e :: rest) = some s' ↔ ∃ m, step s e = some m ∧ run step m rest = some s' :=
  Option.bind_eq_some_iff

theorem run_append {s s' : σ} {as bs : List ε} :
    run step s (as ++ bs) = some s' ↔ ∃ m, run step s as = some m ∧ run step m bs = some s' := by
  induction as generalizing s with
  | nil => simp [run]
  | cons e rest ih =>
    rw [List.cons_append, run_cons]
    constructor
    · rintro ⟨u, hu, h⟩
      obtain ⟨m, hm, hr⟩ := ih.mp h
      exact ⟨m, run_cons.mpr ⟨u, hu, hm⟩, hr⟩
    · rintro ⟨m, hm, hr⟩
      obtain ⟨u, hu, hm⟩ := run_cons.mp hm
      exact ⟨u, hu, ih.mpr ⟨m, hm, hr⟩⟩

theorem along_append {s : σ} {as bs : List ε} (ha : Along step P s as)
    (hb : ∀ m, run step s as = some m → Along step P m bs) : Along step P s (as ++ bs) := by
  induction as generalizing s with
  | nil => exact hb s rfl
  | cons e rest ih =>
    obtain ⟨he, hr⟩ := ha
    exact ⟨he, fun s' hs' => ih (hr s' hs') fun m hm => hb m (run_cons.mpr ⟨s', hs', hm⟩)⟩

theorem Along.mono {s : σ} {es : List ε} (h : Along step P s es) (hPQ : ∀ s e, P s e → Q s e) :
    Along step Q s es := by
  induction es generalizing s with
  | nil => trivial
  | cons e rest ih => exact ⟨hPQ s e h.1, fun s' hs' => ih (h.2 s' hs')⟩

theorem along_of_forall {es : List ε} (h : ∀ e ∈ es, ∀ s, P s e) (s : σ) : Along step P s es := by
  induction es generalizing s with
  | nil => trivial
  | cons e rest ih =>
    exact ⟨h e List.mem_cons_self s, fun s' _ => ih (fun x hx => h x (List.mem_cons_of_mem _ hx)) s'⟩

instance decidableAlong [∀ s e, Decidable (P s e)] :
    (s : σ) → (es : List ε) → Decidable (Along step P s es)
  | _, [] => isTrue trivial
  | s, e :: rest =>
    match h : step s e with
    | none => decidable_of_iff (P s e)
      ⟨fun hp => ⟨hp, fun _ hs => nomatch h.symm.trans hs⟩, And.left⟩
    | some m =>
      have := decidableAlong m rest
      decidable_of_iff (P s e ∧ Along step P m rest)
        ⟨fun hp => ⟨hp.1, fun _ hs => Option.some.inj (h.symm.trans hs) ▸ hp.2⟩,
          fun hp => ⟨hp.1, hp.2 m h⟩⟩

theorem Along.and {s : σ} {es : List ε} (h : Along step P s es) (h' : Along step Q s es) :
    Along step (fun s e => P s e ∧ Q s e) s es := by
  induction es generalizing s with
  | nil => trivial
  | cons e rest ih => exact ⟨⟨h.1, h'.1⟩, fun s' hs' => ih (h.2 s' hs') (h'.2 s' hs')⟩

theorem Along.before {s : σ} {as bs : List ε} (h : Along step P s (as ++ bs)) :
    Along step P s as := by
  induction as generalizing s with
  | nil => trivial
  | cons e rest ih => exact ⟨h.1, fun s' hs' => ih (h.2 s' hs')⟩

/-- The rest of a run. -/
theorem Along.after {s m : σ} {as bs : List ε} (h : Along step P s (as ++ bs))
    (hr : run step s as = some m) : Along step P m bs := by
  induction as generalizing s with
  | nil => exact Option.some.inj hr ▸ h
  | cons e rest ih =>
    obtain ⟨u, hu, hr⟩ := run_cons.mp hr
    exact ih (h.2 u hu) hr

/-- Every step of the run meets the condition where it is made. -/
theorem along_iff {s : σ} {es : List ε} : Along step P s es ↔
    ∀ before e later m, es = before ++ e :: later → run step s before = some m → P m e := by
  constructor
  · rintro h before e later m rfl hm
    exact (h.after hm).1
  · intro h
    induction es generalizing s with
    | nil => trivial
    | cons e rest ih =>
      refine ⟨h [] e rest s rfl rfl, fun s' hs' => ih fun before x later m hrest hm => ?_⟩
      exact h (e :: before) x later m (by rw [hrest, List.cons_append])
        (run_cons.mpr ⟨s', hs', hm⟩)

/-- What every step keeps, every run keeps. -/
theorem Keeps.run (h : Keeps step P I) {s s' : σ} {es : List ε} (hP : Along step P s es)
    (hI : I s) (hr : Transition.run step s es = some s') : I s' := by
  induction es generalizing s with
  | nil => exact Option.some.inj hr ▸ hI
  | cons e rest ih =>
    obtain ⟨m, hm, hr⟩ := run_cons.mp hr
    exact ih (hP.2 m hm) (h s e m hP.1 hI hm) hr

/-- Conditions that agree wherever the invariant holds agree along every run. -/
theorem along_congr (hkeep : Keeps step (fun _ _ => True) I)
    (hPQ : ∀ s e, I s → (P s e ↔ Q s e)) {s : σ} (hI : I s) (es : List ε) :
    Along step P s es ↔ Along step Q s es := by
  induction es generalizing s with
  | nil => exact Iff.rfl
  | cons e rest ih =>
    exact and_congr (hPQ s e hI) (forall₂_congr fun s' hs' => ih (hkeep s e s' trivial hI hs'))

theorem Keeps.mono (h : Keeps step P I) (hQP : ∀ s e, Q s e → P s e) : Keeps step Q I :=
  fun s e s' hQ => h s e s' (hQP s e hQ)

/-! ### Simulation -/

/-- The abstract state gets from one place to another by steps that meet `Q`. -/
def Reaches (step : σ → ε → Option σ) (Q : σ → ε → Prop) (s s' : σ) : Prop :=
  ∃ es, run step s es = some s' ∧ Along step Q s es

theorem Reaches.refl (s : σ) : Reaches step Q s s := ⟨[], rfl, trivial⟩

theorem Reaches.trans {a b c : σ} (h : Reaches step Q a b) (h' : Reaches step Q b c) :
    Reaches step Q a c := by
  obtain ⟨es, hr, hq⟩ := h
  obtain ⟨es', hr', hq'⟩ := h'
  refine ⟨es ++ es', run_append.mpr ⟨b, hr, hr'⟩, along_append hq fun m hm => ?_⟩
  rw [hr] at hm
  exact Option.some.inj hm ▸ hq'

/-- One step. -/
theorem Reaches.one {s s' : σ} {e : ε} (h : step s e = some s') (hQ : Q s e) :
    Reaches step Q s s' :=
  ⟨[e], run_cons.mpr ⟨s', h, rfl⟩, hQ, fun _ _ => trivial⟩

theorem Keeps.reaches (h : Keeps step Q I) {s s' : σ} (hI : I s) (hr : Reaches step Q s s') :
    I s' := by
  obtain ⟨es, hr, hq⟩ := hr
  exact h.run hq hI hr

/-- Where each step of a concrete system leads its abstraction along abstract steps, so
does each run. -/
theorem reaches_run {step' : τ → ι → Option τ} {Q : τ → ι → Prop} (abs : σ → τ)
    (hkeep : Keeps step P I)
    (hsim : ∀ s e s', I s → P s e → step s e = some s' → Reaches step' Q (abs s) (abs s'))
    {s s' : σ} {es : List ε} (hP : Along step P s es) (hI : I s) (hr : run step s es = some s') :
    Reaches step' Q (abs s) (abs s') := by
  induction es generalizing s with
  | nil => exact Option.some.inj hr ▸ Reaches.refl _
  | cons e rest ih =>
    obtain ⟨m, hm, hr⟩ := run_cons.mp hr
    exact (hsim s e m hI hP.1 hm).trans (ih (hP.2 m hm) (hkeep s e m hP.1 hI hm) hr)

end Simloom.Theory.Transition
