import Simloom.Theory.Transition
import Mathlib.Order.Defs.PartialOrder
import Mathlib.Logic.Function.Basic
import Mathlib.Data.List.Induction

/-! Optimistic transactions.

Parties act on a shared state, and each keeps a state of its own. Inside a transaction a party
only reads, and remembers of what it reads whether it is still up to date. A transaction that
ends while all of it is up to date might as well have been made in one go at its end: in every
run all such transactions can be put so, at once (`Optimistic.serial_run`), and neither the
states nor the order in which transactions end show the difference. -/
namespace Simloom.Theory

/-- Parties that act on a shared state, with what makes their transactions optimistic. -/
structure Optimistic (R L E : Type) [Preorder R] where
  act : R → L → E → Option (R × L)
  /-- Outside of all transactions. -/
  idle : L → Bool
  /-- What the party remembers was so once. -/
  Known : R → L → Prop
  /-- What the party remembers is so now. -/
  Valid : R → L → Prop
  /-- What a party may do where it is. -/
  Fits : L → E → Prop
  later {r r' : R} {l l' : L} {e : E} : act r l e = some (r', l') → r ≤ r'
  known {r r' : R} {l l' : L} {e : E} : act r l e = some (r', l') → Known r l → Known r' l'
  known_later {r r' : R} {l : L} : r ≤ r' → Known r l → Known r' l
  /-- Inside a transaction nothing is written. -/
  reads {r r' : R} {l l' : L} {e : E} : Known r l → Fits l e → act r l e = some (r', l') →
    idle l' = false → r' = r
  /-- What is up to date later was read of the same then. -/
  again {r r' : R} {l l' : L} {e : E} : Known r l → Fits l e → act r l e = some (r, l') →
    idle l' = false → r ≤ r' → Valid r' l' → Valid r' l ∧ act r' l e = some (r', l')

namespace Optimistic
variable {R L E ι : Type} [Preorder R] [DecidableEq ι] (S : Optimistic R L E)

/-- A party acts. -/
def step (s : R × (ι → L)) (x : ι × E) : Option (R × (ι → L)) :=
  (S.act s.1 (s.2 x.1) x.2).map fun done => (done.1, Function.update s.2 x.1 done.2)

/-- What is done fits. -/
def Fit (s : R × (ι → L)) (x : ι × E) : Prop := S.Fits (s.2 x.1) x.2

/-- The events that leave their party idle. -/
def closing (s : R × (ι → L)) : List (ι × E) → List (ι × E)
  | [] => []
  | x :: rest =>
    match S.step s x with
    | none => []
    | some s' => if S.idle (s'.2 x.1) then x :: closing s' rest else closing s' rest

/-- The party's transaction is one piece, at the end. -/
def Uncut (s : R × (ι → L)) (events : List (ι × E)) (i : ι) : Prop :=
  ∃ outer span m, events = outer ++ span ∧ Transition.run S.step s outer = some m ∧
    S.idle (m.2 i) = true ∧ ∀ x ∈ span, x.1 = i

/-- The event ends a transaction that is up to date. -/
def Commits (s : R × (ι → L)) (x : ι × E) : Prop :=
  S.idle (s.2 x.1) = false ∧ S.Valid s.1 (s.2 x.1) ∧
    ∃ s', S.step s x = some s' ∧ S.idle (s'.2 x.1) = true

/-- Every transaction that commits is one piece. -/
def Serial (s : R × (ι → L)) (events : List (ι × E)) : Prop :=
  ∀ before x later m, events = before ++ x :: later → Transition.run S.step s before = some m →
    S.Commits m x → S.Uncut s before x.1

/-- The party is not left idle. -/
def Within (i : ι) (s : R × (ι → L)) (x : ι × E) : Prop :=
  x.1 = i → ∀ s', S.step s x = some s' → S.idle (s'.2 i) = false

/-- All parties remember what was so. -/
def AllKnown (s : R × (ι → L)) : Prop := ∀ i, S.Known s.1 (s.2 i)

variable {S} {s s' t u : R × (ι → L)} {x : ι × E} {i : ι} {events outer inner : List (ι × E)}

theorem step_eq : S.step s x = some s' ↔
    ∃ done, S.act s.1 (s.2 x.1) x.2 = some done ∧ s' = (done.1, Function.update s.2 x.1 done.2) := by
  rw [step, Option.map_eq_some_iff]
  exact exists_congr fun _ => and_congr_right fun _ => eq_comm

/-- Elsewhere nothing changes. -/
theorem step_other (h : S.step s x = some s') (hi : x.1 ≠ i) : s'.2 i = s.2 i := by
  obtain ⟨done, _, rfl⟩ := step_eq.mp h
  exact Function.update_of_ne (Ne.symm hi) _ _

theorem step_later (h : S.step s x = some s') : s.1 ≤ s'.1 := by
  obtain ⟨done, hact, rfl⟩ := step_eq.mp h
  exact S.later hact

theorem step_known (h : S.step s x = some s') (hk : S.AllKnown s) : S.AllKnown s' := by
  intro i
  have hlater := step_later h
  obtain ⟨done, hact, rfl⟩ := step_eq.mp h
  by_cases hi : i = x.1
  · subst hi
    simpa using S.known hact (hk x.1)
  · simpa [hi] using S.known_later hlater (hk i)

theorem run_later (h : Transition.run S.step s events = some t) : s.1 ≤ t.1 := by
  induction events generalizing s with
  | nil => exact Option.some.inj h ▸ le_refl _
  | cons x rest ih =>
    obtain ⟨m, hm, hr⟩ := Transition.run_cons.mp h
    exact le_trans (step_later hm) (ih hr)

theorem run_known (h : Transition.run S.step s events = some t) (hk : S.AllKnown s) :
    S.AllKnown t := by
  induction events generalizing s with
  | nil => exact Option.some.inj h ▸ hk
  | cons x rest ih =>
    obtain ⟨m, hm, hr⟩ := Transition.run_cons.mp h
    exact ih hr (step_known hm hk)

theorem closing_append {later : List (ι × E)} (h : Transition.run S.step s events = some t) :
    S.closing s (events ++ later) = S.closing s events ++ S.closing t later := by
  induction events generalizing s with
  | nil => rw [Option.some.inj h]; rfl
  | cons x rest ih =>
    obtain ⟨m, hm, hr⟩ := Transition.run_cons.mp h
    simp only [List.cons_append, closing, hm, ih hr]
    split <;> rfl

/-- A party that is not left idle ends nothing. -/
theorem closing_within (hwithin : Transition.Along S.step (S.Within i) s events)
    (hown : ∀ x ∈ events, x.1 = i) : S.closing s events = [] := by
  induction events generalizing s with
  | nil => rfl
  | cons x rest ih =>
    obtain ⟨rfl, hrest⟩ := List.forall_mem_cons.mp hown
    unfold closing
    cases hstep : S.step s x with
    | none => rfl
    | some m => simp [hwithin.1 rfl m hstep, ih (hwithin.2 m hstep) hrest]

/-! ### Where a transaction begins -/

/-- A run from where the party is idle is parted where the party was last idle. -/
theorem parted (hrun : Transition.run S.step s events = some t) (hidle : S.idle (s.2 i) = true) :
    ∃ outer inner m, events = outer ++ inner ∧ Transition.run S.step s outer = some m ∧
      S.idle (m.2 i) = true ∧ Transition.Along S.step (S.Within i) m inner := by
  induction events using List.reverseRecOn generalizing t with
  | nil => exact ⟨[], [], s, rfl, rfl, hidle, trivial⟩
  | append_singleton events x ih =>
    obtain ⟨m, hm, hx⟩ := Transition.run_append.mp hrun
    by_cases hnow : x.1 = i ∧ S.idle (t.2 i) = true
    · exact ⟨events ++ [x], [], t, (List.append_nil _).symm, hrun, hnow.2, trivial⟩
    · obtain ⟨outer, inner, m₀, rfl, hm₀, hidle₀, hwithin⟩ := ih hm
      refine ⟨outer, inner ++ [x], m₀, List.append_assoc _ _ _, hm₀, hidle₀, ?_⟩
      refine Transition.along_append hwithin fun m' hm' => ⟨?_, fun _ _ => trivial⟩
      obtain ⟨m'', hm'', hinner⟩ := Transition.run_append.mp hm
      rw [hm₀] at hm''
      rw [Option.some.inj hm'', hinner] at hm'
      rw [← Option.some.inj hm']
      intro hi s' hs'
      obtain ⟨_, hstep, hend⟩ := Transition.run_cons.mp hx
      rw [hs'] at hstep
      rw [Option.some.inj hstep, Option.some.inj hend]
      exact Bool.eq_false_iff.mpr fun h => hnow ⟨hi, h⟩

/-! ### The others go first -/

/-- Two states that only one party can tell apart. -/
structure But (i : ι) (s u : R × (ι → L)) : Prop where
  shared : u.1 = s.1
  others : ∀ j, j ≠ i → u.2 j = s.2 j

theorem But.step_other (h : But i s u) (hi : x.1 ≠ i) (hstep : S.step s x = some s') :
    ∃ u', S.step u x = some u' ∧ But i s' u' ∧ u'.2 x.1 = s'.2 x.1 := by
  obtain ⟨done, hact, rfl⟩ := step_eq.mp hstep
  rw [← h.shared, ← h.others x.1 hi] at hact
  refine ⟨_, step_eq.mpr ⟨done, hact, rfl⟩, ⟨rfl, fun j hj => ?_⟩, by simp⟩
  by_cases hx : j = x.1
  · subst hx
    simp
  · simp [hx, h.others j hj]

theorem But.step_own (h : But i s u) (hi : x.1 = i) (hstep : S.step s x = some s')
    (hshared : s'.1 = s.1) : But i s' u where
  shared := h.shared.trans hshared.symm
  others := fun j hj => (h.others j hj).trans (Optimistic.step_other hstep (hi ▸ hj.symm)).symm

/-- In a transaction of its own a party writes nothing. -/
theorem within_shared (hk : S.AllKnown s) (hfit : S.Fit s x) (hwithin : S.Within i s x)
    (hi : x.1 = i) (hstep : S.step s x = some s') : s'.1 = s.1 := by
  have hopen := hwithin hi s' hstep
  obtain ⟨done, hact, rfl⟩ := step_eq.mp hstep
  subst hi
  exact S.reads (hk x.1) hfit hact (by simpa using hopen)

/-- The others do the same without the party. -/
theorem others_run (hrun : Transition.run S.step s inner = some t) (hk : S.AllKnown s)
    (hfit : Transition.Along S.step S.Fit s inner)
    (hwithin : Transition.Along S.step (S.Within i) s inner)
    (hbut : But i s u) :
    ∃ t', Transition.run S.step u (inner.filter fun x => x.1 ≠ i) = some t' ∧ But i t t' ∧
      t'.2 i = u.2 i ∧ Transition.Along S.step S.Fit u (inner.filter fun x => x.1 ≠ i) ∧
      S.closing u (inner.filter fun x => x.1 ≠ i) = S.closing s inner := by
  induction inner generalizing s u with
  | nil =>
    rw [← Option.some.inj hrun]
    exact ⟨u, rfl, hbut, rfl, trivial, rfl⟩
  | cons x rest ih =>
    obtain ⟨m, hm, hr⟩ := Transition.run_cons.mp hrun
    have hkm := step_known hm hk
    by_cases hi : x.1 = i
    · have hsame := hbut.step_own hi hm (within_shared hk hfit.1 hwithin.1 hi hm)
      have hopen := hwithin.1 hi m hm
      obtain ⟨t', ht', hb, hown, hf, hc⟩ := ih hr hkm (hfit.2 m hm) (hwithin.2 m hm) hsame
      rw [List.filter_cons_of_neg (by simpa using hi)]
      refine ⟨t', ht', hb, hown, hf, ?_⟩
      rw [hc]
      subst hi
      simp [closing, hm, hopen]
    · obtain ⟨u', hu', hb', hx⟩ := hbut.step_other hi hm
      obtain ⟨t', ht', hb, hown, hf, hc⟩ := ih hr hkm (hfit.2 m hm) (hwithin.2 m hm) hb'
      rw [List.filter_cons_of_pos (by simpa using hi)]
      have hfitx : S.Fit u x := by
        have hfirst := hfit.1
        unfold Fit at hfirst ⊢
        rwa [hbut.others x.1 hi]
      refine ⟨t', Transition.run_cons.mpr ⟨u', hu', ht'⟩, hb, ?_, ⟨hfitx, fun v hv => ?_⟩, ?_⟩
      · rw [hown, Optimistic.step_other hu' hi]
      · rw [hu'] at hv
        exact Option.some.inj hv ▸ hf
      · rw [closing, closing, hm, hu']
        dsimp only
        rw [hx, hc]

/-! ### The party goes last -/

/-- What was read is read again at the end, where all of it is up to date. -/
theorem own_run (hrun : Transition.run S.step s inner = some t) (hk : S.AllKnown s)
    (hfit : Transition.Along S.step S.Fit s inner)
    (hwithin : Transition.Along S.step (S.Within i) s inner)
    (hvalid : S.Valid t.1 (t.2 i)) :
    S.Valid t.1 (s.2 i) ∧ ∀ u : R × (ι → L), u.1 = t.1 → u.2 i = s.2 i →
      Transition.run S.step u (inner.filter fun x => x.1 = i) =
        some (t.1, Function.update u.2 i (t.2 i)) ∧
      Transition.Along S.step S.Fit u (inner.filter fun x => x.1 = i) ∧
      Transition.Along S.step (S.Within i) u (inner.filter fun x => x.1 = i) := by
  induction inner generalizing s with
  | nil =>
    rw [← Option.some.inj hrun] at hvalid ⊢
    refine ⟨hvalid, fun u hu hi => ⟨?_, trivial, trivial⟩⟩
    rw [← hi, Function.update_eq_self, ← hu]
    rfl
  | cons x rest ih =>
    obtain ⟨m, hm, hr⟩ := Transition.run_cons.mp hrun
    obtain ⟨hthen, hrest⟩ := ih hr (step_known hm hk) (hfit.2 m hm) (hwithin.2 m hm)
    by_cases hi : x.1 = i
    · have hopen := hwithin.1 hi m hm
      have hshared := within_shared hk hfit.1 hwithin.1 hi hm
      have hend := run_later hrun
      have hfits := hfit.1
      obtain ⟨done, hact, rfl⟩ := step_eq.mp hm
      subst hi
      dsimp only at hshared hopen hthen hrest
      rw [Function.update_self] at hopen hthen hrest
      obtain ⟨r, l⟩ := done
      obtain rfl : r = s.1 := hshared
      obtain ⟨hnow, hagain⟩ := S.again (hk x.1) hfits hact hopen hend hthen
      refine ⟨hnow, fun u hu hui => ?_⟩
      have hstep : S.step u x = some (t.1, Function.update u.2 x.1 l) := by
        refine step_eq.mpr ⟨(t.1, l), ?_, rfl⟩
        rw [hu, hui, hagain]
      obtain ⟨hrun', hfit', hwithin'⟩ := hrest (t.1, Function.update u.2 x.1 l) rfl (by simp)
      rw [List.filter_cons_of_pos (by simp)]
      refine ⟨Transition.run_cons.mpr ⟨_, hstep, ?_⟩, ⟨?_, fun v hv => ?_⟩,
        ⟨fun _ v hv => ?_, fun v hv => ?_⟩⟩
      · simpa using hrun'
      · unfold Fit
        rwa [hui]
      · rw [hstep] at hv
        exact Option.some.inj hv ▸ hfit'
      · rw [hstep] at hv
        rw [← Option.some.inj hv]
        simpa using hopen
      · rw [hstep] at hv
        exact Option.some.inj hv ▸ hwithin'
    · rw [Optimistic.step_other hm hi] at hthen hrest
      rw [List.filter_cons_of_neg (by simpa using hi)]
      exact ⟨hthen, hrest⟩

/-! ### What stays in one piece -/

theorem But.commits (h : But i s u) (hi : x.1 ≠ i) (hx : S.Commits u x) : S.Commits s x := by
  obtain ⟨hopen, hvalid, v, hv, hidle⟩ := hx
  have hback : But i u s := ⟨h.shared.symm, fun j hj => (h.others j hj).symm⟩
  obtain ⟨v', hv', _, hsame⟩ := hback.step_other hi hv
  rw [h.others x.1 hi] at hopen hvalid
  exact ⟨hopen, h.shared ▸ hvalid, v', hv', hsame ▸ hidle⟩

theorem Serial.before (h : S.Serial s (outer ++ inner)) : S.Serial s outer := by
  intro before x later m heq hm hc
  exact h before x (later ++ inner) m (by rw [heq, List.append_assoc, List.cons_append]) hm hc

theorem Serial.snoc (h : S.Serial s events)
    (hx : ∀ m, Transition.run S.step s events = some m → S.Commits m x → S.Uncut s events x.1) :
    S.Serial s (events ++ [x]) := by
  intro before y later m heq hm hc
  rcases List.eq_nil_or_concat later with rfl | ⟨rest, z, rfl⟩
  · obtain ⟨rfl, hy⟩ := List.append_inj' heq rfl
    cases (List.cons.inj hy).1
    exact hx m hm hc
  · rw [List.concat_eq_append, ← List.cons_append, ← List.append_assoc] at heq
    obtain ⟨rfl, _⟩ := List.append_inj' heq rfl
    exact h before y rest m rfl hm hc

/-- A party that is not left idle commits nothing. -/
theorem Serial.within (h : S.Serial s events) (hrun : Transition.run S.step s events = some t)
    (hinner : Transition.run S.step t inner = some u)
    (hwithin : Transition.Along S.step (S.Within i) t inner)
    (hown : ∀ x ∈ inner, x.1 = i) : S.Serial s (events ++ inner) := by
  induction inner generalizing events t with
  | nil => rwa [List.append_nil]
  | cons x rest ih =>
    obtain ⟨rfl, hrest⟩ := List.forall_mem_cons.mp hown
    obtain ⟨m, hm, hr⟩ := Transition.run_cons.mp hinner
    have hone : Transition.run S.step s (events ++ [x]) = some m :=
      Transition.run_append.mpr ⟨t, hrun, Transition.run_cons.mpr ⟨m, hm, rfl⟩⟩
    have hsnoc : S.Serial s (events ++ [x]) := by
      refine h.snoc fun t' ht' ⟨_, _, v, hv, hidle⟩ => ?_
      rw [hrun] at ht'
      rw [← Option.some.inj ht'] at hv
      exact absurd hidle (by simp [hwithin.1 rfl v hv])
    have hall := ih hsnoc hone hr (hwithin.2 m hm) hrest
    rwa [List.append_assoc] at hall

theorem filter_foreign {span : List (ι × E)} {j : ι} (hspan : ∀ x ∈ span, x.1 = j) (hj : j ≠ i) :
    (span.filter fun x => x.1 ≠ i) = span :=
  List.filter_eq_self.mpr fun x hx => by simpa [hspan x hx] using hj

/-- A piece of one party stays a piece when the events of another are taken out. -/
theorem Uncut.others {m : R × (ι → L)} {j : ι} (h : S.Uncut s (outer ++ inner) j) (hj : j ≠ i)
    (houter : Transition.run S.step s outer = some m) (hk : S.AllKnown m)
    (hfit : Transition.Along S.step S.Fit m inner)
    (hwithin : Transition.Along S.step (S.Within i) m inner) :
    S.Uncut s (outer ++ inner.filter fun x => x.1 ≠ i) j := by
  obtain ⟨first, span, m₀, heq, hm₀, hidle, hspan⟩ := h
  rcases List.append_eq_append_iff.mp heq with ⟨between, rfl, rfl⟩ | ⟨start, rfl, rfl⟩
  · obtain ⟨m', hm', hbetween⟩ := Transition.run_append.mp hm₀
    rw [houter] at hm'
    rw [← Option.some.inj hm'] at hbetween
    obtain ⟨t', ht', hbut, _⟩ :=
      others_run hbetween hk hfit.before hwithin.before ⟨rfl, fun _ _ => rfl⟩
    refine ⟨outer ++ between.filter fun x => x.1 ≠ i, span, t', ?_, ?_, ?_, hspan⟩
    · rw [List.filter_append, filter_foreign hspan hj, List.append_assoc]
    · exact Transition.run_append.mpr ⟨m, houter, ht'⟩
    · rwa [hbut.others j hj]
  · have hinner := (List.forall_mem_append.mp hspan).2
    refine ⟨first, start ++ inner, m₀, ?_, hm₀, hidle, hspan⟩
    rw [filter_foreign hinner hj, List.append_assoc]

theorem Serial.others {m : R × (ι → L)} (h : S.Serial s (outer ++ inner))
    (houter : Transition.run S.step s outer = some m) (hk : S.AllKnown m)
    (hrun : Transition.run S.step m inner = some t)
    (hfit : Transition.Along S.step S.Fit m inner)
    (hwithin : Transition.Along S.step (S.Within i) m inner) :
    S.Serial s (outer ++ inner.filter fun x => x.1 ≠ i) := by
  induction inner using List.reverseRecOn generalizing t with
  | nil => exact h
  | append_singleton inner x ih =>
    obtain ⟨t₀, ht₀, _⟩ := Transition.run_append.mp hrun
    rw [← List.append_assoc] at h
    have hrest := ih h.before ht₀ hfit.before hwithin.before
    rw [List.filter_append]
    by_cases hi : x.1 = i
    · simpa [hi] using hrest
    · rw [List.filter_cons_of_pos (by simpa using hi), List.filter_nil, ← List.append_assoc]
      refine hrest.snoc fun t' ht' hcommits => ?_
      obtain ⟨m', hm', hothers⟩ := Transition.run_append.mp ht'
      rw [houter] at hm'
      rw [← Option.some.inj hm'] at hothers
      obtain ⟨t'', ht'', hbut, _⟩ :=
        others_run ht₀ hk hfit.before hwithin.before ⟨rfl, fun _ _ => rfl⟩
      rw [hothers] at ht''
      rw [← Option.some.inj ht''] at hbut
      have huncut := h (outer ++ inner) x [] t₀ rfl (Transition.run_append.mpr ⟨m, houter, ht₀⟩)
        (hbut.commits hi hcommits)
      exact huncut.others hi houter hk hfit.before hwithin.before

/-! ### Every run -/

theorem filter_parted (inner : List (ι × E)) (i j : ι) :
    ((inner.filter fun x => x.1 ≠ i) ++ inner.filter fun x => x.1 = i).filter (fun x => x.1 = j) =
      inner.filter fun x => x.1 = j := by
  rw [List.filter_append, List.filter_filter, List.filter_filter]
  by_cases hj : j = i
  · subst hj
    simp
  · have hnone : (inner.filter fun x => decide (x.1 = j) && decide (x.1 = i)) = [] := by
      refine List.filter_eq_nil_iff.mpr fun x _ hx => hj ?_
      simp only [Bool.and_eq_true, decide_eq_true_eq] at hx
      exact hx.1.symm.trans hx.2
    rw [hnone, List.append_nil]
    refine List.filter_congr fun x _ => ?_
    by_cases hx : x.1 = j
    · simp [hx, hj]
    · simp [hx]

/-- **Every run comes to the same as one in which each transaction that commits is one piece.**
Each party does the same there, and the transactions and all else that leaves a party idle come
in the same order. -/
theorem serial_run (hrun : Transition.run S.step s events = some t)
    (hfit : Transition.Along S.step S.Fit s events)
    (hk : S.AllKnown s) (hidle : ∀ i, S.idle (s.2 i) = true) :
    ∃ events', Transition.run S.step s events' = some t ∧ Transition.Along S.step S.Fit s events' ∧
      (∀ i, (events'.filter fun x => x.1 = i) = events.filter fun x => x.1 = i) ∧
      S.closing s events' = S.closing s events ∧ S.Serial s events' := by
  induction events using List.reverseRecOn generalizing t with
  | nil =>
    refine ⟨[], hrun, trivial, fun _ => rfl, rfl, fun before x later m heq _ _ => ?_⟩
    simp at heq
  | append_singleton events x ih =>
    obtain ⟨t₀, ht₀, hx⟩ := Transition.run_append.mp hrun
    obtain ⟨events', hrun', hfit', hsame, hclosing, hserial⟩ := ih ht₀ hfit.before
    have hfitx := hfit.after ht₀
    by_cases hc : S.Commits t₀ x
    · -- The transaction is taken out and put at the end.
      obtain ⟨outer, inner, m, rfl, hm, hidlem, hwithin⟩ := parted hrun' (hidle x.1)
      obtain ⟨m', hm', hinner⟩ := Transition.run_append.mp hrun'
      rw [hm] at hm'
      rw [← Option.some.inj hm'] at hinner
      have hkm := run_known hm hk
      have hfitm := hfit'.after hm
      obtain ⟨u, hu, hbut, hown, hfitu, hcloseu⟩ :=
        others_run hinner hkm hfitm hwithin ⟨rfl, fun _ _ => rfl⟩
      obtain ⟨hrunown, hfitown, hwithinown⟩ :=
        (own_run hinner hkm hfitm hwithin hc.2.1).2 u hbut.shared hown
      have hlast : (t₀.1, Function.update u.2 x.1 (t₀.2 x.1)) = t₀ := by
        refine Prod.ext rfl (funext fun j => ?_)
        by_cases hj : j = x.1
        · simp [hj]
        · simp [hj, hbut.others j hj]
      rw [hlast] at hrunown
      have hothers := Transition.run_append.mpr ⟨m, hm, hu⟩
      have hall := Transition.run_append.mpr ⟨u, hothers, hrunown⟩
      have hpiece : ∀ y ∈ inner.filter (fun y => y.1 = x.1), y.1 = x.1 :=
        fun y hy => by simpa using (List.mem_filter.mp hy).2
      refine ⟨_, Transition.run_append.mpr ⟨t₀, hall, hx⟩, ?_, fun j => ?_, ?_, ?_⟩
      · refine Transition.along_append
          (Transition.along_append (Transition.along_append hfit'.before ?_) ?_) ?_
        · exact fun v hv => Option.some.inj (hm.symm.trans hv) ▸ hfitu
        · exact fun v hv => Option.some.inj (hothers.symm.trans hv) ▸ hfitown
        · exact fun v hv => Option.some.inj (hall.symm.trans hv) ▸ hfitx
      · rw [List.filter_append, List.filter_append events, ← hsame j, List.append_assoc outer,
          List.filter_append, filter_parted, List.filter_append]
      · rw [closing_append ht₀, ← hclosing, closing_append hm, closing_append hall,
          closing_append hothers, closing_append hm, hcloseu, closing_within hwithinown hpiece,
          List.append_nil]
      · have hserial' := hserial.others hm hkm hinner hfitm hwithin
        refine (hserial'.within hothers hrunown hwithinown hpiece).snoc fun _ _ _ => ?_
        exact ⟨_, _, u, rfl, hothers, hown ▸ hidlem, hpiece⟩
    · refine ⟨events' ++ [x], Transition.run_append.mpr ⟨t₀, hrun', hx⟩, ?_, fun i => ?_, ?_, ?_⟩
      · exact Transition.along_append hfit' fun v hv => Option.some.inj (hrun'.symm.trans hv) ▸ hfitx
      · rw [List.filter_append, List.filter_append, hsame i]
      · rw [closing_append hrun', closing_append ht₀, hclosing]
      · refine hserial.snoc fun v hv hcommits => ?_
        rw [hrun'] at hv
        exact absurd (Option.some.inj hv ▸ hcommits) hc

end Optimistic
end Simloom.Theory
