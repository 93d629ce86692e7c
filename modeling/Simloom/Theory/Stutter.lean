import Mathlib.Logic.Basic

/-! Machines that run to a result, and stuttering simulation.

A machine goes on to a next state or stops with a result. In a stuttering simulation the one
machine makes steps that the other does not make, lowering a rank as long as it does so; it
may also fail where the other goes on. Then whatever the one comes to without failing, the
other comes to, and the other way round (`comes`, `comes_back`). -/
namespace Simloom.Theory.Stutter
variable {σ τ ρ ρ' : Type}

/-- The states that a machine goes through. -/
inductive Visits (next : σ → σ ⊕ ρ) (s : σ) : σ → Prop where
  | here : Visits next s s
  | step {u v : σ} (h : Visits next s u) (hnext : next u = .inl v) : Visits next s v

/-- The result that a machine comes to. -/
def Comes (next : σ → σ ⊕ ρ) (s : σ) (r : ρ) : Prop := ∃ u, Visits next s u ∧ next u = .inr r

theorem Visits.trans {next : σ → σ ⊕ ρ} {s u v : σ} (h : Visits next s u) (h' : Visits next u v) :
    Visits next s v := by
  induction h' with
  | here => exact h
  | step _ hnext ih => exact ih.step hnext

/-- `rel` relates the states of two machines, `ends` their results. -/
structure Simulation (next : σ → σ ⊕ ρ) (next' : τ → τ ⊕ ρ') (rel : σ → τ → Prop)
    (ends : ρ → ρ' → Prop) (failed : ρ → Prop) (rank : σ → Nat) : Prop where
  goes : ∀ s t s', rel s t → next s = .inl s' →
    rel s' t ∧ rank s' < rank s ∨ ∃ t', next' t = .inl t' ∧ rel s' t'
  stops : ∀ s t r, rel s t → next s = .inr r → failed r ∨ ∃ r', next' t = .inr r' ∧ ends r r'

namespace Simulation
variable {next : σ → σ ⊕ ρ} {next' : τ → τ ⊕ ρ'} {rel : σ → τ → Prop} {ends : ρ → ρ' → Prop}
  {failed : ρ → Prop} {rank : σ → Nat} {s s' : σ} {t t' : τ}

theorem visits (h : Simulation next next' rel ends failed rank) (hrel : rel s t)
    (hv : Visits next s s') : ∃ t', Visits next' t t' ∧ rel s' t' := by
  induction hv with
  | here => exact ⟨t, .here, hrel⟩
  | @step u v _ hnext ih =>
    obtain ⟨t', hvisits, hu⟩ := ih
    rcases h.goes u t' v hu hnext with ⟨hstutter, _⟩ | ⟨t'', hgoes, hv⟩
    · exact ⟨t', hvisits, hstutter⟩
    · exact ⟨t'', hvisits.step hgoes, hv⟩

/-- What the one comes to without failing, the other comes to. -/
theorem comes (h : Simulation next next' rel ends failed rank) (hrel : rel s t) {r : ρ}
    (hc : Comes next s r) : failed r ∨ ∃ r', Comes next' t r' ∧ ends r r' := by
  obtain ⟨u, hvisits, hstop⟩ := hc
  obtain ⟨t', hvisits', hu⟩ := h.visits hrel hvisits
  refine (h.stops u t' r hu hstop).imp_right ?_
  rintro ⟨r', hstop', hends⟩
  exact ⟨r', ⟨t', hvisits', hstop'⟩, hends⟩

/-- The one goes on until the two move together, or fails before. -/
theorem catches_up (h : Simulation next next' rel ends failed rank) (hrel : rel s t) :
    (∃ r, Comes next s r ∧ failed r) ∨ ∃ u, Visits next s u ∧
      ((∃ u' t', next u = .inl u' ∧ next' t = .inl t' ∧ rel u' t') ∨
        ∃ r r', next u = .inr r ∧ next' t = .inr r' ∧ ends r r') := by
  induction hrank : rank s using Nat.strongRecOn generalizing s with
  | _ n ih =>
    cases hnext : next s with
    | inr r =>
      rcases h.stops s t r hrel hnext with hfailed | ⟨r', hstop, hends⟩
      · exact .inl ⟨r, ⟨s, .here, hnext⟩, hfailed⟩
      · exact .inr ⟨s, .here, .inr ⟨r, r', hnext, hstop, hends⟩⟩
    | inl s' =>
      rcases h.goes s t s' hrel hnext with ⟨hstutter, hlt⟩ | ⟨t', hgoes, hrel'⟩
      · have hfirst : Visits next s s' := Visits.here.step hnext
        rcases ih (rank s') (hrank ▸ hlt) hstutter rfl with
          ⟨r, ⟨u, hvisits, hstop⟩, hfailed⟩ | ⟨u, hvisits, htogether⟩
        · exact .inl ⟨r, ⟨u, hfirst.trans hvisits, hstop⟩, hfailed⟩
        · exact .inr ⟨u, hfirst.trans hvisits, htogether⟩
      · exact .inr ⟨s, .here, .inl ⟨s', t', hnext, hgoes, hrel'⟩⟩

theorem visits_back (h : Simulation next next' rel ends failed rank) (hrel : rel s t)
    (hv : Visits next' t t') :
    (∃ r, Comes next s r ∧ failed r) ∨ ∃ s', Visits next s s' ∧ rel s' t' := by
  induction hv with
  | here => exact .inr ⟨s, .here, hrel⟩
  | @step u v _ hnext ih =>
    refine ih.elim .inl ?_
    rintro ⟨s', hvisits, hs'⟩
    rcases h.catches_up hs' with ⟨r, ⟨w, hw, hstop⟩, hfailed⟩ |
      ⟨w, hw, ⟨w', t', hgoes, hgoes', hrel'⟩ | ⟨r, r', _, hstop', _⟩⟩
    · exact .inl ⟨r, ⟨w, hvisits.trans hw, hstop⟩, hfailed⟩
    · obtain rfl : v = t' := Sum.inl.inj (hnext.symm.trans hgoes')
      exact .inr ⟨w', (hvisits.trans hw).step hgoes, hrel'⟩
    · exact nomatch hnext.symm.trans hstop'

/-- What the other comes to, the one comes to, unless it fails. -/
theorem comes_back (h : Simulation next next' rel ends failed rank) (hrel : rel s t) {r' : ρ'}
    (hc : Comes next' t r') : ∃ r, Comes next s r ∧ (failed r ∨ ends r r') := by
  obtain ⟨t', hvisits, hstop⟩ := hc
  rcases h.visits_back hrel hvisits with ⟨r, hcomes, hfailed⟩ | ⟨s', hs', hrel'⟩
  · exact ⟨r, hcomes, .inl hfailed⟩
  · rcases h.catches_up hrel' with ⟨r, ⟨w, hw, hstop'⟩, hfailed⟩ |
      ⟨w, hw, ⟨_, _, _, hgoes', _⟩ | ⟨r, r'', hstop', hstop'', hends⟩⟩
    · exact ⟨r, ⟨w, hs'.trans hw, hstop'⟩, .inl hfailed⟩
    · exact nomatch hstop.symm.trans hgoes'
    · obtain rfl : r' = r'' := Sum.inr.inj (hstop.symm.trans hstop'')
      exact ⟨r, ⟨w, hs'.trans hw, hstop'⟩, .inr hends⟩

end Simulation

end Simloom.Theory.Stutter
