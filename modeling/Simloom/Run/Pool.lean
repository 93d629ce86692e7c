import Simloom.Run.Explore

/-! The process pool explores the same campaign.

A pool runs whole chunks of seeds and takes its results in order; its artifact is made by a
run of its own. What it says of a campaign is what one process says (`pool_agrees`), but that a
run in the chunk of the failure that ends the campaign may raise after it. -/
namespace Simloom
variable {once : Int → Except Halt RunResult} {stop : Bool}

/-! ### Chunks -/

theorem toChunks_go_flatten {α : Type} (n : Nat) (xs : List α) (chunk : Array α)
    (chunks : Array (List α)) :
    (List.toChunks.go n xs chunk chunks).flatten = chunks.toList.flatten ++ chunk.toList ++ xs := by
  induction xs generalizing chunk chunks with
  | nil => simp [List.toChunks.go]
  | cons x rest ih =>
    unfold List.toChunks.go
    split
    · simp [ih]
    · simp [ih]

/-- Chunks leave no seed out. -/
theorem toChunks_flatten {α : Type} (n : Nat) (xs : List α) : (xs.toChunks (n + 1)).flatten = xs := by
  cases xs with
  | nil => rfl
  | cons x rest =>
    unfold List.toChunks
    simp [toChunks_go_flatten]

/-! ### The artifact -/

/-- The artifact that goes with the failures found so far. -/
def Exploration.artifact (ex : Exploration) (once : Int → Except Halt RunResult) : Option RunResult :=
  ex.failures.head?.bind fun f => (once f.seed).toOption

/-- What one process has where the pool has `ex`. -/
def Exploration.whole (ex : Exploration) (once : Int → Except Halt RunResult) : Exploration :=
  {ex with firstFailure := ex.artifact once}

/-- One process keeps the first failing run, the pool repeats it. -/
theorem whole_add {ex : Exploration} (hex : ex.Reported once) {seed : Int} {r : RunResult}
    (hr : once seed = .ok r) : ((ex.whole once).add seed r).keep r = (ex.add seed r).whole once := by
  have hfirst : (ex.artifact once).or (if r.error.isSome then some r else none) =
      (ex.add seed r).artifact once := by
    unfold Exploration.artifact Exploration.add
    cases hfailures : ex.failures with
    | nil =>
      cases herror : r.error with
      | none => rfl
      | some e => simp [PyException.failure, hr, Except.toOption]
    | cons f rest =>
      obtain ⟨r₀, _, hr₀, _⟩ := hex f (by simp [hfailures])
      simp [hr₀, Except.toOption]
  unfold Exploration.whole Exploration.keep
  rw [← hfirst]
  rfl

/-! ### One chunk -/

/-- The runs of a chunk, as the pool's worker makes them. -/
def runChunk (once : Int → Except Halt RunResult) (chunk : List Int) :
    Except Halt (List (Int × RunResult)) :=
  chunk.mapM fun seed => do
    let r ← once seed
    return (seed, r)

theorem runChunk_cons (seed : Int) (rest : List Int) :
    runChunk once (seed :: rest) =
      once seed >>= fun r => runChunk once rest >>= fun results => .ok ((seed, r) :: results) := by
  unfold runChunk
  rw [List.mapM_cons]
  cases once seed <;> rfl

theorem exploreSeeds_error {seed : Int} {e : Halt} (h : once seed = .error e) (rest : List Int)
    (ex : Exploration) : exploreSeeds once stop (seed :: rest) ex = .error e := by
  unfold exploreSeeds
  rw [h]
  rfl

theorem exploreSeeds_ok {seed : Int} {r : RunResult} (h : once seed = .ok r) (rest : List Int)
    (ex : Exploration) : exploreSeeds once stop (seed :: rest) ex =
      if r.error.isSome ∧ stop then .ok ((ex.add seed r).keep r)
      else exploreSeeds once stop rest ((ex.add seed r).keep r) := by
  conv_lhs => unfold exploreSeeds
  rw [h]
  rfl

/-- A chunk whose runs all return. -/
theorem exploreSeeds_chunk {chunk rest : List Int} {results : List (Int × RunResult)} {ex : Exploration}
    (hex : ex.Reported once) (h : runChunk once chunk = .ok results) :
    exploreSeeds once stop (chunk ++ rest) (ex.whole once) =
      if (collect stop results ex).2 then .ok ((collect stop results ex).1.whole once)
      else exploreSeeds once stop rest ((collect stop results ex).1.whole once) := by
  induction chunk generalizing ex results with
  | nil =>
    obtain rfl : results = [] := (Except.ok.inj h).symm
    rfl
  | cons seed chunk ih =>
    rw [runChunk_cons] at h
    obtain ⟨r, hr, h⟩ := except_bind_ok h
    obtain ⟨results', hresults, h⟩ := except_bind_ok h
    obtain rfl := Except.ok.inj h
    rw [List.cons_append, exploreSeeds_ok hr, whole_add hex hr]
    unfold collect
    by_cases hs : r.error.isSome ∧ stop
    · simp only [if_pos hs, if_true]
    · simp only [if_neg hs]
      exact ih (hex.add hr) hresults

theorem runChunk_error {seed : Int} {rest : List Int} {e : Halt} (h : runChunk once (seed :: rest) = .error e) :
    once seed = .error e ∨ ∃ r, once seed = .ok r ∧ runChunk once rest = .error e := by
  rw [runChunk_cons] at h
  cases hr : once seed with
  | error e' =>
    rw [hr] at h
    exact .inl (congrArg Except.error (Except.error.inj h))
  | ok r =>
    rw [hr] at h
    cases hc : runChunk once rest with
    | error e' =>
      simp only [hc] at h
      exact .inr ⟨r, rfl, congrArg Except.error (Except.error.inj h)⟩
    | ok results =>
      simp only [hc] at h
      cases h

/-- A run raises, and no run before it does. -/
theorem runChunk_raises {chunk : List Int} {e : Halt} (h : runChunk once chunk = .error e) :
    ∃ before seed after, chunk = before ++ seed :: after ∧ once seed = .error e := by
  induction chunk with
  | nil => cases h
  | cons seed rest ih =>
    rcases runChunk_error h with hseed | ⟨_, _, hrest⟩
    · exact ⟨[], seed, rest, rfl, hseed⟩
    · obtain ⟨before, seed', after, hsplit, hraises⟩ := ih hrest
      exact ⟨seed :: before, seed', after, by rw [hsplit]; rfl, hraises⟩

/-- A run raises after another has failed. -/
def Overruns (once : Int → Except Halt RunResult) (seeds : List Int) (e : Halt) : Prop :=
  ∃ before seed after, seeds = before ++ seed :: after ∧ once seed = .error e ∧
    ∃ failing ∈ before, ∃ r, once failing = .ok r ∧ r.error.isSome

theorem Overruns.mono {seeds : List Int} {e : Halt} (h : Overruns once seeds e) (before after : List Int) :
    Overruns once (before ++ seeds ++ after) e := by
  obtain ⟨early, seed, late, rfl, hseed, failing, hfailing, hfails⟩ := h
  exact ⟨before ++ early, seed, late ++ after, by simp, hseed, failing, List.mem_append_right _ hfailing,
    hfails⟩

/-- Where a run of a chunk raises, one process raises the same, unless it has stopped before. -/
theorem exploreSeeds_raises (stop : Bool) {chunk : List Int} (rest : List Int) {e : Halt} (ex : Exploration)
    (h : runChunk once chunk = .error e) :
    exploreSeeds once stop (chunk ++ rest) ex = .error e ∨
      stop = true ∧ Overruns once chunk e ∧ ∃ ex', exploreSeeds once stop (chunk ++ rest) ex = .ok ex' := by
  induction chunk generalizing ex with
  | nil => cases h
  | cons seed chunk ih =>
    rcases runChunk_error h with hraises | ⟨r, hr, hrest⟩
    · exact .inl (exploreSeeds_error hraises _ _)
    · rw [List.cons_append, exploreSeeds_ok hr]
      by_cases hs : r.error.isSome ∧ stop
      · obtain ⟨before, seed', after, rfl, hraises⟩ := runChunk_raises hrest
        refine .inr ⟨hs.2, ⟨seed :: before, seed', after, rfl, hraises, seed, List.mem_cons_self, r, hr, hs.1⟩,
          _, if_pos hs⟩
      · simp only [if_neg hs]
        refine (ih _ hrest).imp_right fun ⟨hstop, hoverruns, hends⟩ => ⟨hstop, ?_, hends⟩
        simpa using hoverruns.mono [seed] []

/-! ### The campaign -/

theorem exploreChunks_error {chunk : List Int} {e : Halt} (h : runChunk once chunk = .error e)
    (rest : List (List Int)) (ex : Exploration) : exploreChunks once stop (chunk :: rest) ex = .error e := by
  unfold runChunk at h
  unfold exploreChunks
  rw [h]
  rfl

theorem exploreChunks_ok {chunk : List Int} {results : List (Int × RunResult)}
    (h : runChunk once chunk = .ok results) (rest : List (List Int)) (ex : Exploration) :
    exploreChunks once stop (chunk :: rest) ex =
      if (collect stop results ex).2 then .ok (collect stop results ex).1
      else exploreChunks once stop rest (collect stop results ex).1 := by
  unfold runChunk at h
  conv_lhs => unfold exploreChunks
  rw [h]
  rfl

/-- Chunk by chunk. -/
theorem exploreChunks_agree (stop : Bool) (chunks : List (List Int)) {ex : Exploration}
    (hex : ex.Reported once) :
    (exploreChunks once stop chunks ex).map (fun ex => ex.whole once) =
        exploreSeeds once stop chunks.flatten (ex.whole once) ∨
      stop = true ∧ ∃ chunk ∈ chunks, ∃ e, Overruns once chunk e ∧
        exploreChunks once stop chunks ex = .error e ∧
        ∃ ex', exploreSeeds once stop chunks.flatten (ex.whole once) = .ok ex' := by
  induction chunks generalizing ex with
  | nil => exact .inl rfl
  | cons chunk rest ih =>
    rw [List.flatten_cons]
    cases hchunk : runChunk once chunk with
    | error e =>
      rcases exploreSeeds_raises stop rest.flatten (ex.whole once) hchunk with
        hraises | ⟨hstop, hoverruns, hends⟩
      · rw [exploreChunks_error hchunk]
        exact .inl hraises.symm
      · exact .inr ⟨hstop, chunk, List.mem_cons_self, e, hoverruns, exploreChunks_error hchunk _ _, hends⟩
    | ok results =>
      have hreported := collect_reported stop (chunk_results hchunk) hex
      rw [exploreSeeds_chunk hex hchunk, exploreChunks_ok hchunk]
      cases hs : (collect stop results ex).2 with
      | true =>
        simp only [if_true]
        exact .inl rfl
      | false =>
        simp only [Bool.false_eq_true, if_false]
        rcases ih hreported with hsame | ⟨hstop, chunk', hin, e, hoverruns, hraises, hends⟩
        · exact .inl hsame
        · exact .inr ⟨hstop, chunk', List.mem_cons_of_mem _ hin, e, hoverruns, hraises, hends⟩

/-- The seeds that failed come in the order in which they ran. -/
theorem exploreSeeds_seeds {seeds : List Int} {ex ex' : Exploration}
    (h : exploreSeeds once stop seeds ex = .ok ex') :
    ∃ failing, ex'.failures.map Failure.seed = ex.failures.map Failure.seed ++ failing ∧
      failing.Sublist seeds := by
  induction seeds generalizing ex with
  | nil =>
    obtain rfl := Except.ok.inj h
    exact ⟨[], (List.append_nil _).symm, .slnil⟩
  | cons seed rest ih =>
    obtain ⟨r, hr, h⟩ := except_bind_ok h
    obtain ⟨this, hthis, hone⟩ : ∃ failing, ((ex.add seed r).keep r).failures.map Failure.seed =
        ex.failures.map Failure.seed ++ failing ∧ failing.Sublist [seed] := by
      cases herror : r.error with
      | none => exact ⟨[], by simp [Exploration.keep, Exploration.add, herror], List.nil_sublist _⟩
      | some e => exact ⟨[seed], by simp [Exploration.keep, Exploration.add, herror, PyException.failure], .refl _⟩
    by_cases hs : r.error.isSome ∧ stop
    · rw [if_pos hs] at h
      obtain rfl := Except.ok.inj h
      exact ⟨this, hthis, hone.trans (List.singleton_sublist.mpr List.mem_cons_self)⟩
    · rw [if_neg hs] at h
      obtain ⟨later, hlater, hsub⟩ := ih h
      exact ⟨this ++ later, by rw [hlater, hthis, List.append_assoc], hone.append hsub⟩

theorem collect_first (results : List (Int × RunResult)) (ex : Exploration) :
    (collect stop results ex).1.firstFailure = ex.firstFailure := by
  induction results generalizing ex with
  | nil => rfl
  | cons p rest ih =>
    unfold collect
    split
    · rfl
    · exact ih _

theorem exploreChunks_first {chunks : List (List Int)} {ex ex' : Exploration}
    (h : exploreChunks once stop chunks ex = .ok ex') : ex'.firstFailure = ex.firstFailure := by
  induction chunks generalizing ex with
  | nil => rw [← Except.ok.inj h]
  | cons chunk rest ih =>
    cases hchunk : runChunk once chunk with
    | error e =>
      rw [exploreChunks_error hchunk] at h
      cases h
    | ok results =>
      rw [exploreChunks_ok hchunk] at h
      split at h
      · rw [← Except.ok.inj h, collect_first]
      · rw [ih h, collect_first]

/-- A pool and one process, over seeds in order. -/
theorem explorePool_agree {seeds : List Int} (hsorted : seeds.Pairwise (· ≤ ·)) :
    explorePool once seeds stop = exploreSeeds once stop seeds .start ∨
      stop = true ∧ ∃ chunk ∈ seeds.toChunks 8, ∃ e, Overruns once chunk e ∧
        explorePool once seeds stop = .error e ∧
        ∃ ex, exploreSeeds once stop seeds .start = .ok ex := by
  have hstart : Exploration.start.Reported once := fun f hf => absurd hf List.not_mem_nil
  have hagree := exploreChunks_agree stop (seeds.toChunks 8) hstart
  rw [toChunks_flatten, show Exploration.start.whole once = .start from rfl] at hagree
  unfold explorePool
  rcases hagree with hsame | ⟨hstop, chunk, hin, e, hoverruns, hraises, hends⟩
  · refine .inl ?_
    cases hchunks : exploreChunks once stop (seeds.toChunks 8) .start with
    | error e =>
      rw [hchunks] at hsame
      exact hsame
    | ok ex =>
      rw [hchunks] at hsame
      obtain ⟨failing, hseeds, hsub⟩ := exploreSeeds_seeds hsame.symm
      have hordered : ex.failures.Pairwise fun a b => decide (a.seed ≤ b.seed) = true := by
        have hmap : (ex.failures.map Failure.seed).Pairwise (· ≤ ·) := by
          rw [show ex.failures.map Failure.seed = failing from hseeds]
          exact hsorted.sublist hsub
        exact (List.pairwise_map.mp hmap).imp fun hle => decide_eq_true hle
      have hfirst : ex.firstFailure = none := exploreChunks_first hchunks
      rw [← hsame]
      simp only [bind, Except.bind, pure, Except.pure, Except.map]
      rw [List.mergeSort_of_pairwise hordered]
      obtain ⟨runs, failures, first, coverage⟩ := ex
      obtain rfl : first = none := hfirst
      cases failures with
      | nil => rfl
      | cons f rest =>
        obtain ⟨r, _, hr, _⟩ := exploreChunks_reported hchunks hstart f List.mem_cons_self
        simp only [Exploration.whole, Exploration.artifact, List.head?_cons, Option.bind_some, hr]
        rfl
  · refine .inr ⟨hstop, chunk, hin, e, hoverruns, ?_, hends⟩
    rw [hraises]
    rfl

theorem seeds_sorted (o : ExploreOptions) : o.seeds.Pairwise (· ≤ ·) := by
  unfold ExploreOptions.seeds
  simp only [bind_pure_comp, List.map_eq_map, List.pairwise_map]
  exact List.pairwise_lt_range.imp fun hlt => by omega

variable {R : RandomSource}

/-- **A pool explores the same campaign.** With any number of processes, `explore` returns what it
returns with one, artifact and coverage included, or raises the same; but when a failure ends the
campaign in one process, the pool raises what a later run in the chunk of that failure raises. -/
theorem pool_agrees (L : LogText) (main : Program) (o : ExploreOptions) (spec : SchedulerSpec)
    (kw : RunKwargs) (fuel : Nat) (R : RandomSource) {pool one : Int} (hpool : 1 < pool) (hone : one ≤ 1) :
    let explored := fun processes => explore L main {o with processes := processes} spec kw fuel R
    explored pool = explored one ∨
      o.stopOnFailure = true ∧ ∃ resolved e, explored pool = .error e ∧
        resolveAutoHorizon main spec o.startSeed kw fuel R = .ok resolved ∧
        (∃ chunk ∈ o.seeds.toChunks 8, Overruns (campaignRun L main o resolved kw fuel R) chunk e) ∧
        ∃ ex, explored one = .ok ex := by
  intro explored
  have hwith : ∀ processes, explored processes = if o.runs < 1 then
      .error (.raised ⟨valueError, "runs must be >= 1"⟩)
    else resolveAutoHorizon main spec o.startSeed kw fuel R >>= fun resolved =>
      if 1 < processes then
        explorePool (campaignRun L main o resolved kw fuel R) o.seeds o.stopOnFailure
      else exploreSeeds (campaignRun L main o resolved kw fuel R) o.stopOnFailure o.seeds .start :=
    fun _ => rfl
  rw [hwith pool, hwith one]
  by_cases hruns : o.runs < 1
  · exact .inl (by rw [if_pos hruns, if_pos hruns])
  · rw [if_neg hruns, if_neg hruns]
    cases hresolve : resolveAutoHorizon main spec o.startSeed kw fuel R with
    | error e => exact .inl rfl
    | ok resolved =>
      have hbind : ∀ f : SchedulerSpec → Except Halt Exploration, (.ok resolved >>= f) = f resolved :=
        fun _ => rfl
      rw [hbind, hbind, if_pos hpool, if_neg (Int.not_lt.mpr hone)]
      refine (explorePool_agree (seeds_sorted o)).imp_right ?_
      rintro ⟨hstop, chunk, hin, e, hoverruns, hraises, hends⟩
      exact ⟨hstop, resolved, e, hraises, rfl, ⟨chunk, hin, hoverruns⟩, hends⟩

theorem pool_agrees_straggler :
    let explored := fun processes => explore shortText straggler ⟨2, 62, true, processes, false⟩
      (.pctAuto none) .default 8 transcriptSource
    explored 4 = explored 1 ∨
      true = true ∧ ∃ resolved e, explored 4 = .error e ∧
        resolveAutoHorizon straggler (.pctAuto none) 62 .default 8 transcriptSource = .ok resolved ∧
        (∃ chunk ∈ (ExploreOptions.seeds ⟨2, 62, true, 1, false⟩).toChunks 8,
          Overruns (campaignRun shortText straggler ⟨2, 62, true, 1, false⟩ resolved .default 8
            transcriptSource) chunk e) ∧
        ∃ ex, explored 1 = .ok ex :=
  pool_agrees shortText straggler ⟨2, 62, true, 1, false⟩ (.pctAuto none) .default 8
    transcriptSource (by decide) (by decide)

end Simloom
