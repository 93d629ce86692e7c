import Simloom.Theory.Novelty
import Simloom.Loop.Rooted
import Simloom.Loop.Tracing

/-! `_fingerprint.py`: interleaving edges, and the corpus of runs that reached new ones.

The fingerprint of a run is the set of pairs of labels that follow one another in its steps.
The corpus is a `Novelty` collector over runs. -/
namespace Simloom
open Theory

/-! ### Edges -/

abbrev StepEdge := String × String

/-- `event["ran"]`; what the loop logs is a string. -/
def Event.ran (e : Event) : Option String :=
  match e.field "ran" with
  | some (.str label) => some label
  | _ => none

/-- The loop of `interleaving_edges`; `none` where a `KeyError` is raised. -/
def edgesFrom : Option String → Finset StepEdge → List Event → Option (Finset StepEdge)
  | _, edges, [] => some edges
  | prev, edges, e :: rest =>
    if e.kind ≠ "step" then edgesFrom prev edges rest
    else
      match e.ran with
      | none => none
      | some ran =>
        match prev with
        | none => edgesFrom (some ran) edges rest
        | some before => edgesFrom (some ran) (insert (before, ran) edges) rest

def interleavingEdges (events : List Event) : Option (Finset StepEdge) := edgesFrom none ∅ events

/-- What ran, step by step. -/
def labels (events : List Event) : List String :=
  (events.filter fun e => e.kind == "step").filterMap Event.ran

/-- Every step says what ran. -/
def Labelled (events : List Event) : Prop := ∀ e ∈ events, e.kind = "step" → e.ran.isSome

/-- The pairs that follow one another. -/
def follow : List String → Finset StepEdge
  | a :: b :: rest => insert (a, b) (follow (b :: rest))
  | _ => ∅

theorem mem_follow {a b : String} {labels : List String} : (a, b) ∈ follow labels ↔ [a, b] <:+: labels := by
  induction labels with
  | nil => simp [follow]
  | cons x rest ih =>
    rw [List.infix_cons_iff]
    cases rest with
    | nil => simp [follow]
    | cons y ys =>
      have hfirst : (a, b) = (x, y) ↔ [a, b] <+: x :: y :: ys := by simp [List.prefix_cons_iff]
      rw [follow, Finset.mem_insert, hfirst]
      exact or_congr_right ih

theorem edgesFrom_eq {events : List Event} (h : Labelled events) (prev : Option String)
    (edges : Finset StepEdge) :
    edgesFrom prev edges events = some (edges ∪ follow (prev.toList ++ labels events)) := by
  induction events generalizing prev edges with
  | nil => cases prev <;> simp [edgesFrom, labels, follow]
  | cons e rest ih =>
    obtain ⟨hfirst, hrest⟩ := List.forall_mem_cons.mp h
    have ih := ih hrest
    unfold edgesFrom
    by_cases hstep : e.kind = "step"
    · obtain ⟨ran, hran⟩ := Option.isSome_iff_exists.mp (hfirst hstep)
      have hlabels : labels (e :: rest) = ran :: labels rest := by simp [labels, hstep, hran]
      rw [if_neg (by simp [hstep]), hran, hlabels]
      cases prev with
      | none => exact ih _ _
      | some before =>
        dsimp only
        rw [ih, Option.toList_some, Option.toList_some, List.singleton_append, List.singleton_append,
          follow, Finset.insert_union, Finset.union_insert]
    · have hlabels : labels (e :: rest) = labels rest := by simp [labels, hstep]
      rw [if_pos hstep, hlabels, ih]

/-- A step that does not say what ran is an error. -/
theorem edgesFrom_none {events : List Event} (h : ¬Labelled events) (prev : Option String)
    (edges : Finset StepEdge) : edgesFrom prev edges events = none := by
  induction events generalizing prev edges with
  | nil => exact absurd (fun e he => absurd he List.not_mem_nil) h
  | cons e rest ih =>
    unfold edgesFrom
    split
    · next hstep =>
      apply ih
      exact fun hrest => h (List.forall_mem_cons.mpr ⟨fun hkind => absurd hkind hstep, hrest⟩)
    · cases hran : e.ran with
      | none => rfl
      | some ran =>
        have hrest : ¬Labelled rest := fun hrest =>
          h (List.forall_mem_cons.mpr ⟨fun _ => by simp [hran], hrest⟩)
        cases prev <;> exact ih hrest _ _

theorem interleavingEdges_eq {events : List Event} (h : Labelled events) :
    interleavingEdges events = some (follow (labels events)) := by
  rw [interleavingEdges, edgesFrom_eq h]
  simp

/-! ### The corpus -/

structure CorpusEntry where
  tape : List Draw
  scheduler : String
  seed : Option Int
  newEdges : Nat

structure InterleavingCorpus where
  seen : Finset StepEdge
  entries : List CorpusEntry

/-- What is passed to `observe`. -/
structure Observed where
  events : List Event
  tape : List Draw
  scheduler : String := "random"
  seed : Option Int := none

namespace InterleavingCorpus

def empty : InterleavingCorpus := ⟨∅, []⟩

def coverage (corpus : InterleavingCorpus) : Nat := corpus.seen.card

end InterleavingCorpus

/-- The edges that a run has to show. -/
def Observed.edges (run : Observed) : Finset StepEdge := (interleavingEdges run.events).getD ∅

theorem Observed.mem_edges (run : Observed) (edge : StepEdge) :
    edge ∈ run.edges ↔ Labelled run.events ∧ [edge.1, edge.2] <:+: labels run.events := by
  by_cases h : Labelled run.events
  · simp [edges, interleavingEdges_eq h, h, ← mem_follow]
  · simp [edges, interleavingEdges, edgesFrom_none h, h]

/-- The entry that a run becomes. -/
def Observed.entry (run : Observed) (newEdges : Nat) : CorpusEntry :=
  ⟨run.tape, run.scheduler, run.seed, newEdges⟩

namespace InterleavingCorpus

/-- The corpus is what a collector of edges has kept. -/
def of (c : Novelty.Collector Observed StepEdge) : InterleavingCorpus :=
  ⟨c.seen, c.kept.map fun k => k.1.entry k.2⟩

variable {c : Novelty.Collector Observed StepEdge}

end InterleavingCorpus

/-! ### The logs of runs -/

theorem field_filter {kind name : String} {t : ℚ} {p : String × Json → Bool}
    (hname : ∀ value, p (name, value) = true) {fields : List (String × Json)} :
    Event.field ⟨kind, t, fields.filter p⟩ name = Event.field ⟨kind, t, fields⟩ name := by
  unfold Event.field
  rw [List.find?_filter]
  congr 2
  funext ⟨key, value⟩
  by_cases hkey : key = name
  · simp [hkey, hname value]
  · simp [hkey]

/-- Causal tracing leaves the fingerprint alone. -/
theorem labels_untraced (log : List Event) : labels (untracedLog log) = labels log := by
  induction log with
  | nil => rfl
  | cons e rest ih =>
    rw [← List.singleton_append, untracedLog_append]
    unfold labels at ih ⊢
    rw [List.filter_append, List.filterMap_append, ih, List.filter_append, List.filterMap_append]
    congr 1
    by_cases hstep : e.kind = "step"
    · have hran : e.untraced.ran = e.ran := by
        rw [Event.ran, Event.ran, Event.untraced, if_pos hstep, field_filter (fun _ => rfl)]
      have hkind : e.untraced.kind = "step" := by rwa [Event.untraced, if_pos hstep]
      simp [untracedLog, hstep, hkind, List.filterMap_cons, hran]
    · by_cases hobserve : e.kind = "observe"
      · simp [untracedLog, hobserve]
      · simp [untracedLog_plain hstep hobserve]

namespace SimLoop
variable {R : RandomSource} {σ J κ : Type} {c : LoopConfig R σ J κ}

/-- Every step that the loop logs says what ran. -/
theorem labelled_after (hhonest : HonestCode c.code) (epoch : ℚ) (user : σ) (tape : Tape R)
    (scheduler : κ) (es : List (Drive R σ J)) (hdrives : ∀ e ∈ es, Chronicle.HonestDrive e) :
    Labelled ((start epoch user tape scheduler).after c es).log := by
  intro e he hstep
  have hrooted := rooted_after hhonest epoch user tape scheduler es hdrives
  obtain ⟨number, hnumber⟩ := List.mem_iff_getElem?.mp
    (show e ∈ ((start epoch user tape scheduler).after c es).steps by simpa [steps, hstep] using he)
  obtain ⟨label, hlabel⟩ := (hrooted.woken number e hnumber).ran
  simp [Event.ran, hlabel]

/-- A run of the loop has a fingerprint, and it is the same with and without `causal`. -/
theorem interleavingEdges_after (hhonest : HonestCode c.code) (epoch : ℚ) (user : σ) (tape : Tape R)
    (scheduler : κ) (es : List (Drive R σ J)) (hdrives : ∀ e ∈ es, Chronicle.HonestDrive e) :
    let log := ((start epoch user tape scheduler).after c es).log
    let plain := ((start epoch user tape scheduler).after c.untraced (es.map Drive.untraced)).log
    interleavingEdges log = some (follow (labels log)) ∧ labels plain = labels log := by
  intro log plain
  have hplain : plain = untracedLog log := congrArg SimLoop.log
    (untraced_after (l := start epoch user tape scheduler) hhonest hdrives)
  refine ⟨?_, ?_⟩
  · apply interleavingEdges_eq
    exact labelled_after hhonest epoch user tape scheduler es hdrives
  · rw [hplain, labels_untraced]

end SimLoop

end Simloom
