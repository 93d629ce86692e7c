import Mathlib.Data.Prod.Basic

/-! `while` loops whose body may fail.

A loop carries its own reason to stop: a rank that every iteration lowers. `run`
is the loop, and its two rules are the usual ones: what an iteration keeps, the
loop keeps (`run_yields`), and a loop whose body returns as long as the invariant
holds returns (`run_total`). The rules speak of `Yields`, what holds of a result if there is
one, and of `Returns`, that there is one. -/
namespace Simloom.Theory
variable {ε α β σ : Type}

/-- Whatever the computation returns satisfies `P`. -/
def Yields (x : Except ε α) (P : α → Prop) : Prop := ∀ a, x = .ok a → P a

def Returns (x : Except ε α) : Prop := ∃ a, x = .ok a

theorem yields_ok {a : α} {P : α → Prop} (h : P a) : Yields (.ok a : Except ε α) P := by
  intro b hb
  rw [← Except.ok.inj hb]
  exact h

theorem yields_error (e : ε) (P : α → Prop) : Yields (.error e) P := by
  intro b hb
  cases hb

theorem Yields.mono {x : Except ε α} {P Q : α → Prop} (h : Yields x P) (hPQ : ∀ a, P a → Q a) :
    Yields x Q := fun a ha => hPQ a (h a ha)

theorem Yields.bind {x : Except ε α} {f : α → Except ε β} {P : α → Prop} {Q : β → Prop}
    (hx : Yields x P) (hf : ∀ a, P a → Yields (f a) Q) : Yields (x >>= f) Q := by
  intro b hb
  cases x with
  | error e => cases hb
  | ok a => exact hf a (hx a rfl) b hb

theorem Returns.bind {x : Except ε α} {f : α → Except ε β} (hx : Returns x)
    (hf : ∀ a, Returns (f a)) : Returns (x >>= f) := by
  obtain ⟨a, rfl⟩ := hx
  exact hf a

/-- `step` answers `none` when the loop's condition does not hold. -/
structure Loop (ε σ : Type) where
  step : σ → Except ε (Option σ)
  rank : σ → Nat × Nat
  decreases : ∀ s s', step s = .ok (some s') → Prod.Lex (· < ·) (· < ·) (rank s') (rank s)

namespace Loop

def run (l : Loop ε σ) (s : σ) : Except ε σ :=
  match _h : l.step s with
  | .error e => .error e
  | .ok none => .ok s
  | .ok (some s') => l.run s'
termination_by l.rank s
decreasing_by exact l.decreases s s' _h

variable (l : Loop ε σ)

theorem run_eq (s : σ) : l.run s = match l.step s with
    | .error e => .error e
    | .ok none => .ok s
    | .ok (some s') => l.run s' := by
  rw [run]
  split <;> next h => rw [h]

/-- What every iteration keeps holds at the end, where the condition fails. -/
theorem run_yields (I : σ → Prop)
    (keep : ∀ s, I s → Yields (l.step s) fun r => ∀ s', r = some s' → I s') (s : σ) (hs : I s) :
    Yields (l.run s) fun s' => I s' ∧ l.step s' = .ok none := by
  induction s using run.induct l with
  | case1 s e he =>
    rw [run_eq, he]
    exact yields_error e _
  | case2 s he =>
    rw [run_eq, he]
    exact yields_ok ⟨hs, he⟩
  | case3 s s' he ih =>
    rw [run_eq, he]
    exact ih (keep s hs _ he s' rfl)

/-- If under the invariant the body returns and keeps it, so does the loop. -/
theorem run_total (I : σ → Prop)
    (h : ∀ s, I s → ∃ r, l.step s = .ok r ∧ ∀ s', r = some s' → I s') (s : σ) (hs : I s) :
    ∃ s', l.run s = .ok s' ∧ I s' ∧ l.step s' = .ok none := by
  induction s using run.induct l with
  | case1 s e he =>
    obtain ⟨r, hr, _⟩ := h s hs
    rw [he] at hr
    cases hr
  | case2 s he =>
    refine ⟨s, ?_, hs, he⟩
    rw [run_eq, he]
  | case3 s s' he ih =>
    obtain ⟨r, hr, hI⟩ := h s hs
    rw [he] at hr
    rw [run_eq, he]
    exact ih (hI s' (Except.ok.inj hr).symm)

/-- A loop whose body always returns comes to its end. -/
theorem run_returns (h : ∀ s, Returns (l.step s)) (s : σ) : Returns (l.run s) := by
  obtain ⟨s', hs', _⟩ := l.run_total (fun _ => True)
    (fun s _ => (h s).imp fun _ hr => ⟨hr, fun _ _ => trivial⟩) s trivial
  exact ⟨s', hs'⟩

end Loop

end Simloom.Theory
