import Simloom.Run.Result
import Simloom.Tape.Process

/-! What the harness does with a tape.

A run threads its tape through phases: draws of the harness itself, whose refusal
ends the run, and the program's own processes. A phase is `Faithful` if what it does
on a tape that cannot refuse, any tape that is fed what it recorded makes it do
again. Faithful phases compose, so a whole run is faithful once its parts are. `Extends`
says that more fuel changes no result, `Records` under which labels a phase draws. -/
namespace Simloom
variable {R : RandomSource} {α β : Type}

/-- A computation that draws from a tape and may not return. -/
abbrev Taped (R : RandomSource) := StateT (Tape R) (Except Halt)

namespace Taped

/-- A draw of the harness: a refusal raises. -/
def draw (label : String) (bound : Nat) : Taped R Nat := fun t =>
  match t.draw label bound with
  | .ok (v, u) => .ok (v.val, u)
  | .error e => .error (.raised e.exception)

/-- A process of the program; `fuel` bounds its requests. -/
def process (p : Process α) (fuel : Nat) : Taped R α := fun t =>
  match p.run fuel [] t with
  | some a => .ok a
  | none => .error .hung

theorem process_ok {p : Process α} {fuel : Nat} {t t' : Tape R} {a : α}
    (h : process p fuel t = .ok (a, t')) : p.run fuel [] t = some (a, t') := by
  unfold process at h
  cases hr : p.run fuel [] t with
  | none => rw [hr] at h; cases h
  | some b => rw [hr] at h; exact congrArg some (Except.ok.inj h)

def fail (h : Halt) : Taped R α := fun _ => .error h

/-- Fed `ds`, the phase returns `a`, consumes them and records them again. -/
def Repeats (x : Taped R α) (a : α) (ds : List Draw) : Prop :=
  ∀ (u : Tape R) (rest : List Draw), u.Feeding (ds ++ rest) →
    ∃ u', x u = .ok (a, u') ∧ u'.Feeding rest ∧ u'.draws = u.draws ++ ds ∧ u.SameSource u'

/-- On a tape that cannot refuse, the phase records what makes it return again a
result that satisfies `Q`. -/
def Faithful (x : Taped R α) (Q : α → Prop) : Prop :=
  ∀ (t t' : Tape R) (a : α), x t = .ok (a, t') → t.Willing → Q a →
    ∃ ds, t'.draws = t.draws ++ ds ∧ t.SameSource t' ∧ x.Repeats a ds

theorem repeats_pure (a : α) : Repeats (pure a : Taped R α) a [] := by
  intro u rest hf
  exact ⟨u, rfl, hf, (List.append_nil _).symm, Tape.SameSource.refl u⟩

theorem Repeats.bind {x : Taped R α} {f : α → Taped R β} {a : α} {b : β} {ds ds' : List Draw}
    (hx : x.Repeats a ds) (hf : (f a).Repeats b ds') : (x >>= f).Repeats b (ds ++ ds') := by
  intro u rest hu
  rw [List.append_assoc] at hu
  obtain ⟨v, hv, hfv, hdv, hsv⟩ := hx u _ hu
  obtain ⟨w, hw, hfw, hdw, hsw⟩ := hf v rest hfv
  refine ⟨w, ?_, hfw, by rw [hdw, hdv, List.append_assoc], hsv.trans hsw⟩
  show (x u >>= fun p => f p.1 p.2) = _
  rw [hv]
  exact hw

theorem faithful_pure (a : α) (Q : α → Prop) : Faithful (pure a : Taped R α) Q := by
  intro t t' b h _ _
  obtain ⟨rfl, rfl⟩ := Prod.mk.inj (Except.ok.inj h)
  exact ⟨[], (List.append_nil _).symm, Tape.SameSource.refl t, repeats_pure a⟩

theorem faithful_fail (h : Halt) (Q : α → Prop) : Faithful (fail h : Taped R α) Q := by
  intro t t' a ha
  cases ha

/-- A bind that returns is two returns. -/
theorem bind_ok {x : Taped R α} {f : α → Taped R β} {t t' : Tape R} {b : β}
    (h : (x >>= f) t = .ok (b, t')) : ∃ a u, x t = .ok (a, u) ∧ f a u = .ok (b, t') := by
  have h' : (x t >>= fun p => f p.1 p.2) = .ok (b, t') := h
  cases hx : x t with
  | error e => rw [hx] at h'; cases h'
  | ok p =>
    rw [hx] at h'
    exact ⟨p.1, p.2, rfl, h'⟩

theorem Faithful.bind {x : Taped R α} {f : α → Taped R β} {Q : β → Prop}
    (hx : x.Faithful fun _ => True) (hf : ∀ a, (f a).Faithful Q) : (x >>= f).Faithful Q := by
  intro t t' b h hw hQ
  obtain ⟨a, u, ha, hb⟩ := bind_ok h
  obtain ⟨ds, hds, hsame, hrep⟩ := hx t u a ha hw trivial
  obtain ⟨ds', hds', hsame', hrep'⟩ := hf a u t' b hb (hw.same hsame) hQ
  exact ⟨ds ++ ds', by rw [hds', hds, List.append_assoc], hsame.trans hsame', hrep.bind hrep'⟩

theorem faithful_draw (label : String) (bound : Nat) :
    Faithful (draw label bound : Taped R Nat) fun _ => True := by
  intro t t' n h _ _
  unfold draw at h
  cases hd : t.draw label bound with
  | error e => rw [hd] at h; cases h
  | ok a =>
    obtain ⟨v, u⟩ := a
    rw [hd] at h
    obtain ⟨rfl, rfl⟩ := Prod.mk.inj (Except.ok.inj h)
    obtain ⟨hdraws, hsame⟩ := Tape.draw_ok hd
    refine ⟨[Draw.answer label v], hdraws, hsame, fun w rest hw => ?_⟩
    obtain ⟨w', hw', hf, hdw, hsw, _⟩ := Tape.Feeding.draw hw
    refine ⟨w', ?_, hf, hdw, hsw⟩
    have hdraw : w.draw label bound = .ok (v, w') := hw'
    rw [draw, hdraw]

theorem faithful_process (p : Process α) (fuel : Nat) :
    Faithful (process p fuel : Taped R α) fun _ => True := by
  intro t t' a h hw _
  unfold process at h
  cases hr : p.run fuel [] t with
  | none => rw [hr] at h; cases h
  | some r =>
    rw [hr] at h
    obtain ⟨ds, hds, hsame, hrep⟩ := p.run_recorded fuel [] t t' a
      (hr.trans (congrArg some (Except.ok.inj h))) (p.willing_undisturbed fuel [] t hw)
    refine ⟨ds, hds, hsame, fun u rest hu => ?_⟩
    obtain ⟨u', hu', hf, hd, hs, _⟩ := hrep u rest hu
    exact ⟨u', by rw [process, hu'], hf, hd, hs⟩

/-! ### Fuel -/

/-- `y` returns whatever `x` does. -/
def Extends {α : Type} (x y : Taped R α) : Prop := ∀ t a, x t = .ok a → y t = .ok a

theorem Extends.refl (x : Taped R α) : x.Extends x := fun _ _ h => h

theorem Extends.bind {x y : Taped R α} {f g : α → Taped R β} (h : x.Extends y)
    (hf : ∀ a, (f a).Extends (g a)) : (x >>= f).Extends (y >>= g) := by
  intro t b hb
  obtain ⟨a, u, ha, hfa⟩ := bind_ok hb
  show (y t >>= fun p => g p.1 p.2) = _
  rw [h t _ ha]
  exact hf a u b hfa

theorem process_extends (p : Process α) (fuel more : Nat) :
    (process p fuel : Taped R α).Extends (process p (fuel + more)) := by
  intro t a h
  unfold process at h ⊢
  cases hr : p.run fuel [] t with
  | none => rw [hr] at h; cases h
  | some b => rw [hr] at h; rw [Process.run_mono hr]; exact h

/-! ### Labels -/

section Records
variable {P : String → Prop}

/-- The phase only adds to what is recorded, under labels that satisfy `P`. -/
def Records {α : Type} (x : Taped R α) (P : String → Prop) : Prop :=
  ∀ t t' a, x t = .ok (a, t') → ∃ ds, t'.draws = t.draws ++ ds ∧ ∀ d ∈ ds, P d.label

theorem Records.bind {x : Taped R α} {f : α → Taped R β} (hx : x.Records P)
    (hf : ∀ a, (f a).Records P) : (x >>= f).Records P := by
  intro t t' b h
  obtain ⟨a, u, ha, hb⟩ := bind_ok h
  obtain ⟨ds, hds, hall⟩ := hx t u a ha
  obtain ⟨ds', hds', hall'⟩ := hf a u t' b hb
  refine ⟨ds ++ ds', by rw [hds', hds, List.append_assoc], fun d hd => ?_⟩
  exact (List.mem_append.mp hd).elim (hall d) (hall' d)

theorem records_pure (a : α) : (pure a : Taped R α).Records P := by
  intro t t' b h
  obtain ⟨_, rfl⟩ := Prod.mk.inj (Except.ok.inj h)
  exact ⟨[], (List.append_nil _).symm, fun d hd => absurd hd List.not_mem_nil⟩

theorem records_fail (e : Halt) : (fail e : Taped R α).Records P := fun _ _ _ h => by cases h

theorem draw_recorded {label : String} {bound v : Nat} {t t' : Tape R}
    (h : draw label bound t = .ok (v, t')) :
    ∃ d : Draw, d.label = label ∧ d.bound = bound ∧ t'.draws = t.draws ++ [d] := by
  unfold draw at h
  cases hd : t.draw label bound with
  | error e => rw [hd] at h; cases h
  | ok p =>
    rw [hd] at h
    obtain ⟨_, rfl⟩ := Prod.mk.inj (Except.ok.inj h)
    exact ⟨Draw.answer label p.1, rfl, rfl, (Tape.draw_ok hd).1⟩

theorem records_draw {label : String} (h : P label) (bound : Nat) :
    (draw label bound : Taped R Nat).Records P := by
  intro t t' v ht
  obtain ⟨d, hlabel, _, hd⟩ := draw_recorded ht
  exact ⟨[d], hd, fun d' hd' => by rw [List.mem_singleton.mp hd', hlabel]; exact h⟩

end Records

end Taped

end Simloom
