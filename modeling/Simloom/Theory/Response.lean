import Mathlib.Algebra.Order.Group.Defs
import Mathlib.Data.List.Basic

/-! Bounded response over timed observations.

A trigger opens an obligation: a response has to be observed within a bound from it. One
deadline is enough to watch for all obligations at once. `check` keeps it: it is armed by a
trigger when it was not, and disarmed by a response. As long as no observation is made after
the deadline, it is the deadline of the earliest obligation that is open (`Tracks`). -/
namespace Simloom.Theory.Response

theorem getElem?_snoc {α : Type} {l : List α} {x y : α} {j : Nat} (h : (l ++ [x])[j]? = some y) :
    l[j]? = some y ∨ j = l.length ∧ y = x := by
  rcases Nat.lt_trichotomy j l.length with hlt | heq | hgt
  · rw [List.getElem?_append_left hlt] at h
    exact .inl h
  · subst heq
    rw [List.getElem?_concat_length] at h
    exact .inr ⟨rfl, (Option.some.inj h).symm⟩
  · have hlen : (l ++ [x]).length ≤ j := by
      rw [List.length_append, List.length_singleton]
      exact hgt
    rw [List.getElem?_eq_none hlen] at h
    cases h

variable {T σ : Type} [AddCommGroup T] [LinearOrder T]

section Definitions
variable (trigger response : T × σ → Bool) (within : T)

/-- A response is among the observations from `k` on, by `within` after `t`. -/
def Answered (obs : List (T × σ)) (k : Nat) (t : T) : Prop :=
  ∃ j o, k ≤ j ∧ obs[j]? = some o ∧ o.1 ≤ t + within ∧ response o = true

/-- The `k`-th observation is a trigger without an answer. -/
def Open (obs : List (T × σ)) (k : Nat) : Prop :=
  ∃ o, obs[k]? = some o ∧ trigger o = true ∧ ¬ Answered response within obs k o.1

/-- Disarm the deadline, or arm it. -/
def check (armed : Option T) (o : T × σ) : Option T :=
  match armed with
  | some d => if response o then none else some d
  | none => if trigger o && !response o then some (o.1 + within) else none

/-- The deadline is that of the earliest open obligation. -/
inductive Tracks (obs : List (T × σ)) : Option T → Prop where
  | clear (h : ∀ k, ¬ Open trigger response within obs k) : Tracks obs none
  | armed {k : Nat} {o : T × σ} (ho : obs[k]? = some o) (htrigger : trigger o = true)
    (hsilent : ∀ j o', k ≤ j → obs[j]? = some o' → response o' = false)
    (hearlier : ∀ j < k, ¬ Open trigger response within obs j) : Tracks obs (some (o.1 + within))

end Definitions

variable {trigger response : T × σ → Bool} {within : T} {obs : List (T × σ)} {o : T × σ}
  {armed : Option T} {d : T}

theorem tracks_nil : Tracks trigger response within ([] : List (T × σ)) none :=
  .clear fun _ ⟨_, ho, _⟩ => nomatch ho

/-! ### One more observation -/

theorem Answered.snoc {k : Nat} {t : T} (h : Answered response within obs k t) :
    Answered response within (obs ++ [o]) k t := by
  obtain ⟨j, o', hle, ho', ht, hr⟩ := h
  exact ⟨j, o', hle, List.getElem?_append_left (List.getElem?_eq_some_iff.mp ho').1 ▸ ho', ht, hr⟩

/-- The new observation answers what it comes early enough for. -/
theorem answered_last {k : Nat} {t : T} (hk : k ≤ obs.length) (ht : o.1 ≤ t + within)
    (hr : response o = true) : Answered response within (obs ++ [o]) k t :=
  ⟨obs.length, o, hk, List.getElem?_concat_length, ht, hr⟩

variable [IsOrderedAddMonoid T]

/-- A trigger that was not open before is the new observation. -/
theorem open_snoc {k : Nat} (hw : 0 ≤ within) (h : Open trigger response within (obs ++ [o]) k) :
    Open trigger response within obs k ∨
      k = obs.length ∧ trigger o = true ∧ response o = false := by
  obtain ⟨o', ho', ht, hn⟩ := h
  rcases getElem?_snoc ho' with ho' | ⟨rfl, rfl⟩
  · exact .inl ⟨o', ho', ht, fun ha => hn ha.snoc⟩
  · exact .inr ⟨rfl, ht, Bool.eq_false_iff.mpr fun hr =>
      hn (answered_last le_rfl (le_add_of_nonneg_right hw) hr)⟩

/-- **One deadline tracks all obligations.** -/
theorem Tracks.snoc (h : Tracks trigger response within obs armed) (hw : 0 ≤ within)
    (hordered : obs.Pairwise fun o o' => o.1 ≤ o'.1) (hdue : ∀ d ∈ armed, o.1 ≤ d) :
    Tracks trigger response within (obs ++ [o]) (check trigger response within armed o) := by
  cases h with
  | clear hclear =>
    unfold check
    dsimp only
    split
    next hnew =>
      obtain ⟨ht, hr⟩ := Bool.and_eq_true_iff.mp hnew
      have hr : response o = false := (Bool.not_eq_true' _).mp hr
      refine .armed List.getElem?_concat_length ht (fun j o' hj ho' => ?_) fun j hj hopen => ?_
      · rcases getElem?_snoc ho' with ho' | ⟨_, rfl⟩
        · exact absurd (List.getElem?_eq_some_iff.mp ho').1 (not_lt.mpr hj)
        · exact hr
      · rcases open_snoc hw hopen with hopen | ⟨rfl, _⟩
        · exact hclear j hopen
        · exact lt_irrefl _ hj
    next hnot =>
      refine .clear fun k hopen => ?_
      rcases open_snoc hw hopen with hopen | ⟨_, ht, hr⟩
      · exact hclear k hopen
      · exact hnot (by rw [ht, hr]; rfl)
  | @armed k first hfirst htrigger hsilent hearlier =>
    have hlast : o.1 ≤ first.1 + within := hdue _ rfl
    obtain ⟨hk, hget⟩ := List.getElem?_eq_some_iff.mp hfirst
    unfold check
    dsimp only
    split
    next hr =>
      -- the response comes in time for the earliest obligation, so for all later ones
      refine .clear fun j hopen => ?_
      rcases open_snoc hw hopen with hold | ⟨_, _, hsilent'⟩
      · rcases Nat.lt_or_ge j k with hlt | hge
        · exact hearlier j hlt hold
        · obtain ⟨o', ho', _, _⟩ := hold
          obtain ⟨hj, hget'⟩ := List.getElem?_eq_some_iff.mp ho'
          have hle : first.1 ≤ o'.1 := by
            rcases Nat.eq_or_lt_of_le hge with heq | hlt
            · subst heq
              exact (congrArg Prod.fst (hget.symm.trans hget')).le
            · exact hget ▸ hget' ▸ List.pairwise_iff_getElem.mp hordered k j hk hj hlt
          obtain ⟨o'', ho'', _, hn⟩ := hopen
          rw [List.getElem?_append_left hj, ho'] at ho''
          obtain rfl := Option.some.inj ho''
          exact hn (answered_last hj.le (hlast.trans (add_le_add_left hle within)) hr)
      · rw [hsilent'] at hr
        cases hr
    next hr =>
      refine .armed (List.getElem?_append_left hk ▸ hfirst) htrigger (fun j o' hj ho' => ?_)
        fun j hj hopen => ?_
      · rcases getElem?_snoc ho' with ho' | ⟨_, rfl⟩
        · exact hsilent j o' hj ho'
        · exact Bool.eq_false_iff.mpr hr
      · rcases open_snoc hw hopen with hopen | ⟨rfl, _⟩
        · exact hearlier j hj hopen
        · exact lt_asymm hj hk

/-! ### What the deadline says -/

omit [IsOrderedAddMonoid T] in
/-- While it is armed, the last observation is no response. -/
theorem Tracks.last_silent (h : Tracks trigger response within obs (some d))
    (ho : obs.getLast? = some o) : response o = false := by
  cases h with
  | @armed k first hget htrigger hsilent hearlier =>
    rw [List.getLast?_eq_getElem?] at ho
    have hk := (List.getElem?_eq_some_iff.mp hget).1
    exact hsilent (obs.length - 1) o (by omega) ho

end Simloom.Theory.Response
