import Simloom.Loop.Deadline
import Simloom.Theory.Response

/-! What the liveness monitors decide.

The boundaries of a run are the times and states after its steps. Between steps each monitor
stands for its temporal property over the boundaries since its registration (`Tracks`): a
goal is satisfied exactly if a boundary met it, and a response is owed exactly if a trigger
among them is still open. So the verdicts at the deadlines and at the end of the run are
those of the properties (`liveness_exact`). -/
namespace Simloom
open Theory
variable {R : RandomSource} {σ J κ : Type}

/-- A function of the program's state alone. -/
def Predicate.Pure (p : Predicate σ) : Prop := ∀ s t t', p s t = p s t'

/-! ### The properties -/

/-- A boundary since the registration, within the time given, met the goal. -/
def Eventually.Met (bs : List (ℚ × σ)) (e : Eventually σ) : Prop :=
  ∃ b ∈ bs.drop e.since, b.1 ≤ e.made + e.within ∧ e.predicate b.2 b.1 = true

/-- The `k`-th boundary since the registration is a trigger, and no boundary from it on and
within the time given is a response. -/
def LeadsTo.Open (bs : List (ℚ × σ)) (m : LeadsTo σ) (k : Nat) : Prop :=
  Response.Open (fun b => m.trigger b.2 b.1) (fun b => m.response b.2 b.1) m.within
    (bs.drop m.since) k

/-! ### What the monitors stand for -/

structure Eventually.Tracks (bs : List (ℚ × σ)) (e : Eventually σ) : Prop where
  deadline : e.deadline = e.made + e.within
  since : e.since ≤ bs.length
  met : e.predicate.Pure → e.satisfied = true → e.Met bs
  unmet : e.satisfied = false → ∀ b ∈ bs.drop e.since, e.predicate b.2 b.1 = false

structure LeadsTo.Tracks (bs : List (ℚ × σ)) (m : LeadsTo σ) : Prop where
  within : 0 < m.within
  since : m.since ≤ bs.length
  tracks : m.response.Pure → Response.Tracks (fun b => m.trigger b.2 b.1)
    (fun b => m.response b.2 b.1) m.within (bs.drop m.since) m.armedDeadline

namespace Eventually
variable {bs : List (ℚ × σ)} {e : Eventually σ} {s : σ} {now : ℚ}

theorem Fresh.tracks (h : e.Fresh now bs.length) : e.Tracks bs := by
  obtain ⟨hunmet, _, hdeadline, _, hsince⟩ := h
  refine ⟨hdeadline, hsince.le, fun _ hmet => ?_, fun _ b hb => ?_⟩
  · rw [hunmet] at hmet
    cases hmet
  · rw [hsince, List.drop_length] at hb
    cases hb

/-- A boundary is checked. -/
theorem Tracks.check (h : e.Tracks bs) (hdue : e.Due now) :
    (e.check s now).Tracks (bs ++ [(now, s)]) := by
  have hdrop : (bs ++ [(now, s)]).drop e.since = bs.drop e.since ++ [(now, s)] :=
    List.drop_append_of_le_length h.since
  have hlength : e.since ≤ (bs ++ [(now, s)]).length := by
    rw [List.length_append]
    exact h.since.trans (Nat.le_add_right _ _)
  unfold Eventually.check
  split
  next hnew =>
    obtain ⟨hunmet, hholds⟩ := Bool.and_eq_true_iff.mp hnew
    have hle : now ≤ e.made + e.within := h.deadline ▸ hdue ((Bool.not_eq_true' _).mp hunmet)
    refine ⟨h.deadline, hlength, fun _ _ => ⟨(now, s), ?_, hle, hholds⟩, nofun⟩
    show (now, s) ∈ (bs ++ [(now, s)]).drop e.since
    rw [hdrop]
    exact List.mem_append_right _ List.mem_cons_self
  next hold =>
    refine ⟨h.deadline, hlength, fun hpure hmet => ?_, fun hunmet b hb => ?_⟩
    · obtain ⟨b, hb, hle, hholds⟩ := h.met hpure hmet
      exact ⟨b, hdrop ▸ List.mem_append_left _ hb, hle, hholds⟩
    · rw [hdrop] at hb
      rcases List.mem_append.mp hb with hb | hb
      · exact h.unmet hunmet b hb
      · rw [List.mem_singleton.mp hb]
        simpa [hunmet] using hold

/-- A goal that is not met fails in the state of the last boundary. -/
theorem Tracks.fails (h : e.Tracks bs) (hpure : e.predicate.Pure) (hsince : e.since < bs.length)
    (hlast : ∀ b ∈ bs.getLast?, b.2 = s) (hunmet : e.satisfied = false) :
    e.predicate s now = false := by
  obtain ⟨b, hb⟩ : ∃ b, bs.getLast? = some b := by
    refine Option.ne_none_iff_exists'.mp fun hnone => ?_
    rw [List.getLast?_eq_none_iff.mp hnone] at hsince
    cases hsince
  have hdrop : (bs.drop e.since).getLast? = some b := by
    rw [List.getLast?_drop, if_neg (by omega), hb]
  rw [← hlast b hb, hpure b.2 now b.1]
  exact h.unmet hunmet b (List.mem_of_getLast? hdrop)

end Eventually

namespace LeadsTo
variable {bs : List (ℚ × σ)} {m : LeadsTo σ} {s : σ} {now d : ℚ}

theorem Fresh.tracks (h : m.Fresh bs.length) : m.Tracks bs := by
  obtain ⟨hnone, hwithin, hsince⟩ := h
  refine ⟨hwithin, hsince.le, fun _ => ?_⟩
  rw [hnone, hsince, List.drop_length]
  exact Response.tracks_nil

/-- A check moves the deadline, and nothing else. -/
theorem check_eq (m : LeadsTo σ) (s : σ) (now : ℚ) : m.check s now = {m with
      armedDeadline := Response.check (fun b : ℚ × σ => m.trigger b.2 b.1)
        (fun b => m.response b.2 b.1) m.within m.armedDeadline (now, s)} := by
  obtain ⟨label, trigger, response, within, armed, since⟩ := m
  cases armed with
  | none =>
    dsimp only [check, Response.check]
    split <;> rfl
  | some d =>
    dsimp only [check, Response.check]
    split <;> rfl

/-- A boundary is checked. -/
theorem Tracks.check (h : m.Tracks bs) (hdue : m.Due now)
    (hordered : bs.Pairwise fun b b' => b.1 ≤ b'.1) :
    (m.check s now).Tracks (bs ++ [(now, s)]) := by
  rw [check_eq]
  refine ⟨h.within, ?_, fun hpure => ?_⟩
  · rw [List.length_append]
    exact h.since.trans (Nat.le_add_right _ _)
  · show Response.Tracks _ _ _ ((bs ++ [(now, s)]).drop m.since) _
    rw [List.drop_append_of_le_length h.since]
    exact (h.tracks hpure).snoc (o := (now, s)) h.within.le
      (hordered.sublist (List.drop_sublist _ _)) hdue.2

/-- An owed response fails in the state of the last boundary. -/
theorem Tracks.fails (h : m.Tracks bs) (hpure : m.response.Pure) (hsince : m.since < bs.length)
    (hlast : ∀ b ∈ bs.getLast?, b.2 = s) (harmed : m.armedDeadline = some d) :
    m.response s now = false := by
  obtain ⟨b, hb⟩ : ∃ b, bs.getLast? = some b := by
    refine Option.ne_none_iff_exists'.mp fun hnone => ?_
    rw [List.getLast?_eq_none_iff.mp hnone] at hsince
    cases hsince
  have htracks := h.tracks hpure
  rw [harmed] at htracks
  rw [← hlast b hb, hpure b.2 now b.1]
  exact htracks.last_silent (by rw [List.getLast?_drop, if_neg (by omega), hb])

end LeadsTo

/-! ### Between steps -/

/-- A boundary has come since the registration. -/
structure Eventually.Watched (bs : List (ℚ × σ)) (e : Eventually σ) : Prop where
  tracks : e.Tracks bs
  begun : e.since < bs.length

structure LeadsTo.Watched (bs : List (ℚ × σ)) (m : LeadsTo σ) : Prop where
  tracks : m.Tracks bs
  begun : m.since < bs.length

theorem lt_length_snoc {α : Type} {k : Nat} {bs : List α} {b : α} (h : k ≤ bs.length) :
    k < (bs ++ [b]).length := by
  rw [List.length_append]
  exact Nat.lt_succ_of_le h

theorem Eventually.Tracks.watch {bs : List (ℚ × σ)} {s : σ} {now : ℚ} {e : Eventually σ}
    (h : e.Tracks bs) (hdue : e.Due now) : (e.check s now).Watched (bs ++ [(now, s)]) where
  tracks := h.check hdue
  begun := by
    have hsince : (e.check s now).since = e.since := by
      unfold Eventually.check
      split <;> rfl
    exact hsince ▸ lt_length_snoc h.since

theorem LeadsTo.Tracks.watch {bs : List (ℚ × σ)} {s : σ} {now : ℚ} {m : LeadsTo σ}
    (h : m.Tracks bs) (hdue : m.Due now) (hordered : bs.Pairwise fun b b' => b.1 ≤ b'.1) :
    (m.check s now).Watched (bs ++ [(now, s)]) where
  tracks := h.check hdue hordered
  begun := by
    rw [LeadsTo.check_eq]
    exact lt_length_snoc h.since

theorem Eventually.Watched.demand {bs : List (ℚ × σ)} {s : σ} {now t : ℚ} {detail : String} {i : Nat}
    {e : Eventually σ} (h : e.Watched bs) (hlast : ∀ b ∈ bs.getLast?, b.2 = s)
    (hunmet : e.satisfied = false) : (e.demand s now t detail i).1.Watched bs := by
  unfold Eventually.demand
  split
  next hholds =>
    refine ⟨⟨h.tracks.deadline, h.tracks.since, fun hpure _ => ?_, nofun⟩, h.begun⟩
    rw [h.tracks.fails hpure h.begun hlast hunmet] at hholds
    cases hholds
  next => exact h

theorem Eventually.Watched.fireDue {bs : List (ℚ × σ)} {s : σ} {now : ℚ} {i : Nat}
    {e : Eventually σ} (h : e.Watched bs) (hlast : ∀ b ∈ bs.getLast?, b.2 = s) :
    (e.fireDue s now i).1.Watched bs := by
  unfold Eventually.fireDue
  split
  next hdue => exact h.demand hlast ((Bool.not_eq_true' _).mp (Bool.and_eq_true_iff.mp hdue).1)
  next => exact h

theorem Eventually.Watched.finalize {bs : List (ℚ × σ)} {s : σ} {now : ℚ} {i : Nat}
    {e : Eventually σ} (h : e.Watched bs) (hlast : ∀ b ∈ bs.getLast?, b.2 = s) :
    (e.finalize s now i).1.Watched bs := by
  unfold Eventually.finalize
  split
  next hunmet => exact h.demand hlast ((Bool.not_eq_true' _).mp hunmet)
  next => exact h

theorem LeadsTo.Watched.fireDue {bs : List (ℚ × σ)} {s : σ} {now : ℚ} {i : Nat} {m : LeadsTo σ}
    (h : m.Watched bs) (hlast : ∀ b ∈ bs.getLast?, b.2 = s) :
    (m.fireDue s now i).1.Watched bs := by
  unfold LeadsTo.fireDue
  split
  next d harmed =>
    split
    next =>
      split
      next hholds =>
        refine ⟨⟨h.tracks.within, h.tracks.since, fun hpure => ?_⟩, h.begun⟩
        rw [h.tracks.fails hpure h.begun hlast harmed] at hholds
        cases hholds
      next => exact h
    next => exact h
  next => exact h

theorem LeadsTo.Watched.finalize {bs : List (ℚ × σ)} {s : σ} {now : ℚ} {i : Nat} {m : LeadsTo σ}
    (h : m.Watched bs) : (m.finalize s now i).1.Watched bs := by
  unfold LeadsTo.finalize
  split <;> exact h

end Simloom
