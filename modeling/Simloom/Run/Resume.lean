import Simloom.Run.Soak

/-! Shards skip nothing, and resuming repeats only what was lost.

Between calls a shard's cursor is the number of indices that were run, or one less when
the call that ran the last of them ended before it had written the checkpoint. A call
therefore starts with the first index that is not known to be done. -/
namespace Simloom
open Theory

/-- Every seed from the start on belongs to one shard, at one index. -/
theorem shardSeed_partition (start : Int) {shards : Nat} (hshards : 1 ≤ shards) {seed : Int}
    (hseed : start ≤ seed) :
    ∃! p : Nat × Nat, p.1 < shards ∧ seed = shardSeed start shards p.1 p.2 := by
  obtain ⟨d, hd⟩ := Int.eq_ofNat_of_zero_le (Int.sub_nonneg.mpr hseed)
  have hsum (k i : Nat) : seed = shardSeed start shards k i ↔ d = k + i * shards := by
    unfold shardSeed
    constructor
    · intro h
      have hcast : (d : Int) = ((k + i * shards : Nat) : Int) := by
        push_cast
        omega
      exact_mod_cast hcast
    · intro h
      have hcast : (d : Int) = k + i * shards := by exact_mod_cast h
      omega
  refine ⟨(d % shards, d / shards), ⟨Nat.mod_lt d hshards, ?_⟩, ?_⟩
  · rw [hsum]
    exact (Nat.mod_add_div' d shards).symm
  · rintro ⟨k, i⟩ ⟨hk, hsplit⟩
    rw [hsum] at hsplit
    dsimp only at hk hsplit
    have hmod : d % shards = k := by rw [hsplit, Nat.add_mul_mod_self_right, Nat.mod_eq_of_lt hk]
    have hdiv : d / shards = i := by
      rw [hsplit, Nat.add_mul_div_right _ _ hshards, Nat.div_eq_of_lt hk, Nat.zero_add]
    rw [hmod, hdiv]

/-! ### What was run -/

namespace Soak

/-- One more than the greatest index that was run of a shard. -/
def reach (s : Soak) (k : Nat) : Nat :=
  (s.started.filter fun a => a.shard = k).foldl (fun n a => max n (a.index + 1)) 0

/-- The indices that were run of a shard, in order. -/
def indices (s : Soak) (k : Nat) : List Nat := (s.started.filter fun a => a.shard = k).map Start.index

/-- The call of the run is under way and has not saved it. -/
def Pending (s : Soak) (a : Start) : Prop :=
  ∃ c, s.calls[a.call]? = some c ∧ c.shard = a.shard ∧ c.phase.unsaved = some a.index

theorem reach_append {s t : Soak} {b : Start} (h : t.started = s.started ++ [b]) (k : Nat) :
    t.reach k = if b.shard = k then max (s.reach k) (b.index + 1) else s.reach k := by
  unfold reach
  rw [h, List.filter_append, List.foldl_append]
  by_cases hk : b.shard = k <;> simp [hk]

structure Inv (start : Int) (shards : Nat) (s : Soak) : Prop where
  fits : ∀ data ∈ s.file, data.Fits start shards
  alone : ∀ (i : Nat) (c : SoakCall), s.calls[i]? = some c → c.phase.finished = false →
    i + 1 = s.calls.length
  known : ∀ k i, i < s.reach k ↔ ∃ a ∈ s.started, a.shard = k ∧ a.index = i
  ordered : s.started.Pairwise fun a b =>
    a.shard = b.shard → a.index ≤ b.index ∧ (a.index = b.index → a ∈ s.lost)
  cursor : ∀ k, cursorIn s.file k = s.reach k ∨ (cursorIn s.file k + 1 = s.reach k ∧
    ∀ a ∈ s.started, a.shard = k → a.index = cursorIn s.file k → a ∈ s.lost ∨ s.Pending a)
  ready : ∀ (i : Nat) (c : SoakCall) (index : Nat), s.calls[i]? = some c →
    c.phase = .ready index ∨ c.phase = .saved index → cursorIn s.file c.shard = index
  unsaved : ∀ (i : Nat) (c : SoakCall) (index : Nat), s.calls[i]? = some c →
    c.phase.unsaved = some index → cursorIn s.file c.shard = index ∧ s.reach c.shard = index + 1
  replacing : ∀ (i : Nat) (c : SoakCall) (index : Nat) (data : Checkpoint), s.calls[i]? = some c →
    c.phase = .replacing index data → data.Fits start shards ∧
      ∀ k, data.cursor k = if k = c.shard then index + 1 else cursorIn s.file k

variable {start : Int} {shards : Nat} {s : Soak} {i : Nat} {c c' : SoakCall}

/-- The one call that may be under way. -/
theorem Inv.only (h : s.Inv start shards) (hi : s.calls[i]? = some c)
    (hlive : c.phase.finished = false) {j : Nat} {d : SoakCall} (hj : s.calls[j]? = some d)
    (hd : d.phase.finished = false) : j = i := by
  have := h.alone i c hi hlive
  have := h.alone j d hj hd
  omega

theorem Inv.others (h : s.Inv start shards) (hi : s.calls[i]? = some c)
    (hlive : c.phase.finished = false) {j : Nat} {d : SoakCall} (hji : j ≠ i)
    (hj : s.calls[j]? = some d) : d.phase.finished = true := by
  by_contra hd
  exact hji (h.only hi hlive hj (Bool.eq_false_iff.mpr hd))

/-- A finished call claims nothing. -/
theorem finished_unsaved {p : SoakPhase} (h : p.finished = true) : p.unsaved = none := by
  cases p <;> first | rfl | cases h

theorem settled {p : SoakPhase} {index : Nat} (hcursor : p.cursor = some index)
    (hsaved : p.unsaved = none) (hlive : p.finished = false) : p = .ready index ∨ p = .saved index := by
  cases p <;> simp_all [SoakPhase.cursor, SoakPhase.unsaved, SoakPhase.finished]

theorem finished_ne_ready {p : SoakPhase} (h : p.finished = true) (index : Nat) :
    ¬(p = .ready index ∨ p = .saved index) := by
  rintro (rfl | rfl) <;> cases h

theorem finished_ne_replacing {p : SoakPhase} (h : p.finished = true) (index : Nat)
    (data : Checkpoint) : p ≠ .replacing index data := by
  rintro rfl
  cases h

/-- The call that was under way, and what the others still claim: nothing. -/
structure Moves (start : Int) (shards : Nat) (s : Soak) (i : Nat) (c : SoakCall) : Prop where
  inv : s.Inv start shards
  here : s.calls[i]? = some c
  live : c.phase.finished = false

namespace Moves
variable (m : Moves start shards s i c)
include m

theorem alone : ∀ (j : Nat) (d : SoakCall), (s.calls.set i c')[j]? = some d →
    d.phase.finished = false → j + 1 = (s.calls.set i c').length := by
  refine forall_moved m.here ?_ fun j d hji hj hd => ?_
  · intro _
    rw [List.length_set]
    exact m.inv.alone i c m.here m.live
  · exact absurd (m.inv.others m.here m.live hji hj) (by simp [hd])

/-- What only a call under way claims is to be shown of the one that moved. -/
theorem claims {P : Nat → SoakCall → Prop} (hself : P i c')
    (hfinished : ∀ j d, d.phase.finished = true → P j d) :
    ∀ j d, (s.calls.set i c')[j]? = some d → P j d :=
  forall_moved m.here hself fun j d hji hj => hfinished j d (m.inv.others m.here m.live hji hj)

theorem pending {a : Start} (hshard : c'.shard = c.shard)
    (hunsaved : c'.phase.unsaved = c.phase.unsaved) {s' : Soak} (hcalls : s'.calls = s.calls.set i c')
    (hp : s.Pending a) : s'.Pending a := by
  obtain ⟨d, hd, hds, hdu⟩ := hp
  have hai := m.inv.only m.here m.live hd (SoakPhase.finished_of_unsaved hdu)
  rw [hai, m.here, Option.some.injEq] at hd
  subst hd
  refine ⟨c', ?_, hshard.trans hds, hunsaved.trans hdu⟩
  rw [hcalls, getElem?_moved m.here, if_pos hai]

/-- A step that starts nothing, writes nothing and loses nothing. -/
theorem quiet (hshard : c'.shard = c.shard) (hunsaved : c'.phase.unsaved = c.phase.unsaved)
    (hready : ∀ index, c'.phase = .ready index ∨ c'.phase = .saved index →
      cursorIn s.file c.shard = index)
    (hreplacing : ∀ index data, c'.phase = .replacing index data → data.Fits start shards ∧
      ∀ k, data.cursor k = if k = c.shard then index + 1 else cursorIn s.file k) :
    Inv start shards {s with calls := s.calls.set i c'} :=
  { m.inv with
    alone := m.alone
    cursor := by
      intro k
      rcases m.inv.cursor k with h | ⟨h, hlost⟩
      · exact .inl h
      · exact .inr ⟨h, fun a ha hk hindex =>
          (hlost a ha hk hindex).imp id (m.pending hshard hunsaved rfl)⟩
    ready := fun j d index hj => m.claims
      (P := fun _ d => d.phase = .ready index ∨ d.phase = .saved index →
        cursorIn s.file d.shard = index)
      (hshard ▸ hready index) (fun _ _ hf h => absurd h (finished_ne_ready hf index)) j d hj
    unsaved := fun j d index hj => m.claims
      (P := fun _ d => d.phase.unsaved = some index →
        cursorIn s.file d.shard = index ∧ s.reach d.shard = index + 1)
      (fun hu => hshard ▸ m.inv.unsaved i c index m.here (hunsaved ▸ hu))
      (fun _ _ hf h => by rw [finished_unsaved hf] at h; cases h) j d hj
    replacing := fun j d index data hj => m.claims
      (P := fun _ d => d.phase = .replacing index data → data.Fits start shards ∧
        ∀ k, data.cursor k = if k = d.shard then index + 1 else cursorIn s.file k)
      (hshard ▸ hreplacing index data)
      (fun _ _ hf h => absurd h (finished_ne_replacing hf index data)) j d hj }

/-- The call is over; what it had not saved is lost. -/
theorem dies (hphase : c'.phase = .over) {lost : List Start}
    (hlost : lost = s.lost ++ c.phase.unsaved.toList.map fun index => ⟨i, c.shard, index⟩) :
    Inv start shards {s with calls := s.calls.set i c', lost := lost} :=
  have hsub : ∀ a ∈ s.lost, a ∈ lost := fun a ha => hlost ▸ List.mem_append_left _ ha
  { m.inv with
    alone := m.alone
    ordered := m.inv.ordered.imp fun h hk => ⟨(h hk).1, fun he => hsub _ ((h hk).2 he)⟩
    cursor := by
      intro k
      rcases m.inv.cursor k with h | ⟨h, hold⟩
      · exact .inl h
      · refine .inr ⟨h, fun a ha hk hindex => .inl ?_⟩
        rcases hold a ha hk hindex with hl | ⟨d, hd, hds, hdu⟩
        · exact hsub a hl
        · have hai := m.inv.only m.here m.live hd (SoakPhase.finished_of_unsaved hdu)
          rw [hai, m.here, Option.some.injEq] at hd
          subst hd
          rw [hlost]
          refine List.mem_append_right _ ?_
          rw [hdu]
          exact List.mem_singleton.mpr (by cases a; simp_all)
    ready := fun j d index hj => m.claims
      (P := fun _ d => d.phase = .ready index ∨ d.phase = .saved index →
        cursorIn s.file d.shard = index)
      (fun h => absurd h (finished_ne_ready (by rw [hphase]; rfl) index))
      (fun _ _ hf h => absurd h (finished_ne_ready hf index)) j d hj
    unsaved := fun j d index hj => m.claims
      (P := fun _ d => d.phase.unsaved = some index →
        cursorIn s.file d.shard = index ∧ s.reach d.shard = index + 1)
      (fun h => by rw [hphase] at h; cases h)
      (fun _ _ hf h => by rw [finished_unsaved hf] at h; cases h) j d hj
    replacing := fun j d index data hj => m.claims
      (P := fun _ d => d.phase = .replacing index data → data.Fits start shards ∧
        ∀ k, data.cursor k = if k = d.shard then index + 1 else cursorIn s.file k)
      (fun h => by rw [hphase] at h; cases h)
      (fun _ _ hf h => absurd h (finished_ne_replacing hf index data)) j d hj }

/-- Where the call has nothing unsaved, what it repeats was lost. -/
theorem lost_of_saved (hsaved : c.phase.unsaved = none) {a : Start}
    (h : a ∈ s.lost ∨ s.Pending a) : a ∈ s.lost := by
  rcases h with h | ⟨d, hd, _, hdu⟩
  · exact h
  · have hai := m.inv.only m.here m.live hd (SoakPhase.finished_of_unsaved hdu)
    rw [hai, m.here, Option.some.injEq] at hd
    rw [hd, hdu] at hsaved
    cases hsaved

/-- A run is started at the cursor. -/
theorem starts {index : Nat} (hphase : c.phase = .ready index) (hshard : c'.shard = c.shard)
    (hrunning : c'.phase = .running index) :
    Inv start shards
      {s with calls := s.calls.set i c', started := s.started ++ [⟨i, c.shard, index⟩]} := by
  have hcursor := m.inv.ready i c index m.here (.inl hphase)
  have hsaved : c.phase.unsaved = none := by rw [hphase]; rfl
  have hreach (k : Nat) := reach_append (s := s) (b := ⟨i, c.shard, index⟩)
    (t := {s with calls := s.calls.set i c', started := s.started ++ [⟨i, c.shard, index⟩]}) rfl k
  -- the index is new, or the greatest that was run and lost
  have hlast : s.reach c.shard = index ∨ s.reach c.shard = index + 1 := by
    rcases m.inv.cursor c.shard with h | ⟨h, _⟩ <;> omega
  have hself : Soak.reach {s with
      calls := s.calls.set i c', started := s.started ++ [⟨i, c.shard, index⟩]} c.shard =
      index + 1 := by
    rw [hreach, if_pos rfl]
    show max (s.reach c.shard) (index + 1) = index + 1
    omega
  have holder : ∀ a ∈ s.started, a.shard = c.shard →
      a.index ≤ index ∧ (a.index = index → a ∈ s.lost) := by
    intro a ha hk
    have hlt := (m.inv.known c.shard a.index).mpr ⟨a, ha, hk, rfl⟩
    rcases m.inv.cursor c.shard with h | ⟨h, hold⟩
    · exact ⟨by omega, fun he => by omega⟩
    · exact ⟨by omega, fun he => m.lost_of_saved hsaved (hold a ha hk (he.trans hcursor.symm))⟩
  exact { m.inv with
    alone := m.alone
    known := by
      intro k j
      simp only [List.mem_append, List.mem_singleton, or_and_right, exists_or, exists_eq_left,
        ← m.inv.known]
      by_cases hk : c.shard = k
      · subst hk
        rw [hself]
        rcases hlast with h | h <;> rw [h] <;> constructor <;> intro hj <;> omega
      · rw [hreach, if_neg hk]
        simp [hk]
    ordered := by
      refine List.pairwise_append.mpr ⟨m.inv.ordered, List.pairwise_singleton _ _, ?_⟩
      intro a ha b hb hk
      rw [List.mem_singleton.mp hb] at hk ⊢
      exact holder a ha hk
    cursor := by
      intro k
      by_cases hk : c.shard = k
      · subst hk
        refine .inr ⟨by rw [hself]; exact congrArg (· + 1) hcursor, fun a ha hak hindex => ?_⟩
        rcases List.mem_append.mp ha with ha | ha
        · exact .inl ((holder a ha hak).2 (hindex.trans hcursor))
        · rw [List.mem_singleton.mp ha]
          refine .inr ⟨c', ?_, hshard, by rw [hrunning]; rfl⟩
          show (s.calls.set i c')[i]? = some c'
          rw [getElem?_moved m.here, if_pos rfl]
      · rw [hreach, if_neg hk]
        rcases m.inv.cursor k with h | ⟨h, hold⟩
        · exact .inl h
        · refine .inr ⟨h, fun a ha hak hindex => .inl ?_⟩
          rcases List.mem_append.mp ha with ha | ha
          · exact m.lost_of_saved hsaved (hold a ha hak hindex)
          · rw [List.mem_singleton.mp ha] at hak
            exact absurd hak hk
    ready := fun j d j' hj => m.claims
      (P := fun _ d => d.phase = .ready j' ∨ d.phase = .saved j' → cursorIn s.file d.shard = j')
      (fun h => by rw [hrunning] at h; rcases h with h | h <;> cases h)
      (fun _ _ hf h => absurd h (finished_ne_ready hf j')) j d hj
    unsaved := fun j d j' hj => m.claims
      (P := fun _ d => d.phase.unsaved = some j' → cursorIn s.file d.shard = j' ∧
        Soak.reach {s with
          calls := s.calls.set i c', started := s.started ++ [⟨i, c.shard, index⟩]} d.shard = j' + 1)
      (fun h => by
        rw [hrunning] at h
        cases h
        rw [hshard]
        exact ⟨hcursor, hself⟩)
      (fun _ _ hf h => by rw [finished_unsaved hf] at h; cases h) j d hj
    replacing := fun j d j' data hj => m.claims
      (P := fun _ d => d.phase = .replacing j' data → data.Fits start shards ∧
        ∀ k, data.cursor k = if k = d.shard then j' + 1 else cursorIn s.file k)
      (fun h => by rw [hrunning] at h; cases h)
      (fun _ _ hf h => absurd h (finished_ne_replacing hf j' data)) j d hj }

/-- The checkpoint is replaced. -/
theorem saves {index : Nat} {data : Checkpoint} (hphase : c.phase = .replacing index data)
    (hshard : c'.shard = c.shard) (hsaved : c'.phase = .saved (index + 1)) :
    Inv start shards {s with file := some data, calls := s.calls.set i c'} := by
  obtain ⟨hfits, hdata⟩ := m.inv.replacing i c index data m.here hphase
  have hunsaved := m.inv.unsaved i c index m.here (by rw [hphase]; rfl)
  exact { m.inv with
    fits := fun _ h => Option.some.inj h ▸ hfits
    alone := m.alone
    cursor := by
      intro k
      show data.cursor k = s.reach k ∨ (data.cursor k + 1 = s.reach k ∧
        ∀ a ∈ s.started, a.shard = k → a.index = data.cursor k → _)
      rw [hdata k]
      by_cases hk : k = c.shard
      · rw [if_pos hk, hk]
        exact .inl hunsaved.2.symm
      · rw [if_neg hk]
        refine (m.inv.cursor k).imp id fun ⟨h, hold⟩ => ⟨h, fun a ha hak hindex => .inl ?_⟩
        rcases hold a ha hak hindex with hl | ⟨d, hd, hds, hdu⟩
        · exact hl
        · have hai := m.inv.only m.here m.live hd (SoakPhase.finished_of_unsaved hdu)
          rw [hai, m.here, Option.some.injEq] at hd
          exact absurd (hak.symm.trans (hds.symm.trans (congrArg SoakCall.shard hd.symm))) hk
    ready := fun j d j' hj => m.claims
      (P := fun _ d => d.phase = .ready j' ∨ d.phase = .saved j' → data.cursor d.shard = j')
      (fun h => by
        rw [hsaved] at h
        rcases h with h | h
        · cases h
        · cases h
          rw [hshard, hdata, if_pos rfl])
      (fun _ _ hf h => absurd h (finished_ne_ready hf j')) j d hj
    unsaved := fun j d j' hj => m.claims
      (P := fun _ d => d.phase.unsaved = some j' →
        data.cursor d.shard = j' ∧ s.reach d.shard = j' + 1)
      (fun h => by rw [hsaved] at h; cases h)
      (fun _ _ hf h => by rw [finished_unsaved hf] at h; cases h) j d hj
    replacing := fun j d j' data' hj => m.claims
      (P := fun _ d => d.phase = .replacing j' data' → data'.Fits start shards ∧
        ∀ k, data'.cursor k = if k = d.shard then j' + 1 else data.cursor k)
      (fun h => by rw [hsaved] at h; cases h)
      (fun _ _ hf h => absurd h (finished_ne_replacing hf j' data')) j d hj }

end Moves

theorem inv_on {file : Option Checkpoint} (h : ∀ data ∈ file, data.Fits start shards)
    (hempty : ∀ k, cursorIn file k = 0) : Inv start shards (on file) where
  fits := h
  alone := fun _ _ hj => nomatch hj
  known := fun _ _ => ⟨fun h => absurd h (Nat.not_lt_zero _), fun ⟨_, ha, _⟩ => nomatch ha⟩
  ordered := .nil
  cursor := fun k => .inl (hempty k)
  ready := fun _ _ _ hj => nomatch hj
  unsaved := fun _ _ _ hj => nomatch hj
  replacing := fun _ _ _ _ hj => nomatch hj

theorem Inv.begin (h : s.Inv start shards) (hfinished : ∀ c ∈ s.calls, c.phase.finished = true)
    (shard count : Nat) (stopOnFailure onFailure : Bool) :
    Inv start shards {s with calls := s.calls ++ [.begin shard count stopOnFailure onFailure]} := by
  have hcall {P : SoakCall → Prop} (hnew : P (.begin shard count stopOnFailure onFailure))
      (hold : ∀ d, d.phase.finished = true → P d) (j : Nat) (d : SoakCall)
      (hj : (s.calls ++ [.begin shard count stopOnFailure onFailure])[j]? = some d) : P d := by
    rcases List.mem_append.mp (List.mem_of_getElem? hj) with hd | hd
    · exact hold d (hfinished d hd)
    · exact List.mem_singleton.mp hd ▸ hnew
  exact { h with
    alone := by
      intro j d hj hd
      rw [List.length_append, List.length_singleton]
      rcases Nat.lt_or_ge j s.calls.length with hlt | hge
      · rw [List.getElem?_append_left hlt] at hj
        exact absurd (hfinished d (List.mem_of_getElem? hj)) (by simp [hd])
      · obtain ⟨hlt, _⟩ := List.getElem?_eq_some_iff.mp hj
        rw [List.length_append, List.length_singleton] at hlt
        omega
    cursor := by
      intro k
      refine (h.cursor k).imp id fun ⟨hk, hold⟩ => ⟨hk, fun a ha hak hindex => .inl ?_⟩
      rcases hold a ha hak hindex with hl | ⟨d, hd, _, hdu⟩
      · exact hl
      · rw [finished_unsaved (hfinished d (List.mem_of_getElem? hd))] at hdu
        cases hdu
    ready := fun j d index hj => hcall
      (P := fun d => d.phase = .ready index ∨ d.phase = .saved index →
        cursorIn s.file d.shard = index)
      (fun h => by rcases h with h | h <;> cases h)
      (fun _ hf h => absurd h (finished_ne_ready hf index)) j d hj
    unsaved := fun j d index hj => hcall
      (P := fun d => d.phase.unsaved = some index →
        cursorIn s.file d.shard = index ∧ s.reach d.shard = index + 1)
      (fun h => nomatch h) (fun _ hf h => by rw [finished_unsaved hf] at h; cases h) j d hj
    replacing := fun j d index data hj => hcall
      (P := fun d => d.phase = .replacing index data → data.Fits start shards ∧
        ∀ k, data.cursor k = if k = d.shard then index + 1 else cursorIn s.file k)
      (fun h => nomatch h)
      (fun _ hf h => absurd h (finished_ne_replacing hf index data)) j d hj }

theorem Moves.step (m : Moves start shards s i c) {act : SoakAct} {file : Option Checkpoint}
    (h : SoakCall.Did start shards s.file c act file c') :
    Inv start shards (s.after i c c' file) := by
  cases h with
  | opened hphase hread hshard hready =>
    rw [after_quiet (by simp [hready]) (by simp [hready])]
    refine m.quiet hshard (by rw [hphase, hready]; rfl) ?_ (by simp [hready])
    rintro index (h | h) <;> rw [hready] at h <;> cases h
    exact readCursor_ok hread
  | started hphase hshard hrunning =>
    rw [after_start hphase hrunning]
    exact m.starts hphase hshard hrunning
  | @went _ _ index _ _ hcursor hshard hcursor' hunsaved hrunning hreplacing =>
    rw [after_quiet hrunning (fun h => by rw [h] at hcursor'; cases hcursor')]
    refine m.quiet hshard hunsaved ?_ fun j data h => absurd h (hreplacing j data)
    intro j h
    have hj : j = index := by rcases h with h | h <;> rw [h] at hcursor' <;> cases hcursor' <;> rfl
    have hsaved : c.phase.unsaved = none := by
      rw [← hunsaved]
      rcases h with h | h <;> rw [h] <;> rfl
    exact m.inv.ready i c j m.here (hj ▸ settled hcursor hsaved m.live)
  | readExisting hphase hshard hreplacing =>
    rw [after_quiet (by simp [hreplacing]) (by simp [hreplacing])]
    refine m.quiet hshard (by rw [hphase, hreplacing]; rfl) (by simp [hreplacing]) ?_
    intro index data h
    rw [hreplacing] at h
    cases h
    exact ⟨updated_fits _ _, updated_cursor m.inv.fits _ _⟩
  | replaced hphase hshard hsaved =>
    rw [after_quiet (by simp [hsaved]) (by simp [hsaved])]
    exact m.saves hphase hshard hsaved
  | ended _ _ _ hover =>
    rw [after_over hover]
    exact m.dies hover rfl

/-! ### Every sequence of calls -/

theorem keeps_step {s' : Soak} {e : Event} (h : s.Inv start shards) (hseq : s.Sequential e)
    (hstep : s.step start shards e = some s') : s'.Inv start shards := by
  cases e with
  | begin shard count stopOnFailure onFailure =>
    unfold Soak.step at hstep
    dsimp only at hstep
    split at hstep
    · cases hstep
      exact h.begin hseq _ _ _ _
    · cases hstep
      exact h
  | act i act =>
    obtain ⟨c, c', file, hi, hdid, rfl⟩ := did_of_step hstep
    exact Moves.step ⟨h, hi, hdid.live⟩ hdid

theorem inv_of_run {events : List Event}
    (hseq : Transition.Along (step start shards) Sequential (on none) events)
    (hrun : Transition.run (step start shards) (on none) events = some s) : s.Inv start shards := by
  have hkeeps : Transition.Keeps (step start shards) Sequential (Inv start shards) :=
    fun _ _ _ hseq h hstep => keeps_step h hseq hstep
  exact hkeeps.run hseq (inv_on (by simp) fun _ => rfl) hrun

theorem mem_indices {k j : Nat} : j ∈ s.indices k ↔ ∃ a ∈ s.started, a.shard = k ∧ a.index = j := by
  simp [indices, and_assoc]

/-- The shards are a partition of the seeds. After any sequence of calls, one after
another and killed wherever, the indices run of a shard are those below some `n`, in
order, and one is run again only after its run was lost. -/
theorem soak_resumes (start : Int) (shards : Nat) (hshards : 1 ≤ shards) :
    (∀ seed ≥ start, ∃! p : Nat × Nat,
      p.1 < shards ∧ seed = shardSeed start shards p.1 p.2) ∧
    ∀ (events : List Event) (s : Soak),
      Transition.Along (step start shards) Sequential (on none) events →
      Transition.run (step start shards) (on none) events = some s → ∀ k,
        (∃ n, ∀ i, i ∈ s.indices k ↔ i < n) ∧
        (s.started.filter fun a => a.shard = k).Pairwise fun a b =>
          a.index ≤ b.index ∧ (a.index = b.index → a ∈ s.lost) := by
  refine ⟨fun seed hseed => shardSeed_partition start hshards hseed, fun events s hseq hrun k => ?_⟩
  have h := inv_of_run hseq hrun
  refine ⟨⟨s.reach k, fun i => mem_indices.trans (h.known k i).symm⟩, ?_⟩
  rw [List.pairwise_filter]
  refine h.ordered.imp fun hab ha hb => hab ?_
  rw [of_decide_eq_true ha, of_decide_eq_true hb]

instance (s : Soak) : (e : Event) → Decidable (s.Sequential e)
  | .begin .. => inferInstanceAs (Decidable (∀ c ∈ s.calls, c.phase.finished = true))
  | .act .. => inferInstanceAs (Decidable True)

/-- Two calls on one of three shards, the first killed in its first run. -/
def killedOnce : List Event :=
  [.begin 1 1 false false, .act 0 .opened, .act 0 .loop, .act 0 .kill,
    .begin 1 1 false false, .act 1 .opened, .act 1 .loop]

theorem soak_resumes_killed : ∃ s, Transition.run (step 10 3) (on none) killedOnce = some s ∧
    s.indices 1 = [0, 0] ∧ s.lost = [⟨0, 1, 0⟩] ∧ (∃ n, ∀ i, i ∈ s.indices 1 ↔ i < n) ∧
    ∃! p : Nat × Nat, p.1 < 3 ∧ (17 : Int) = shardSeed 10 3 p.1 p.2 := by
  obtain ⟨s, hrun, hs⟩ := Option.any_eq_true _ _ |>.mp
    (show ((Transition.run (step 10 3) (on none) killedOnce).any fun s =>
      s.indices 1 = [0, 0] ∧ s.lost = [⟨0, 1, 0⟩]) = true by decide)
  obtain ⟨hindices, hlost⟩ := of_decide_eq_true hs
  have h := soak_resumes 10 3 (by decide)
  exact ⟨s, hrun, hindices, hlost, (h.2 killedOnce s (by decide) hrun 1).1, h.1 17 (by decide)⟩

end Soak

end Simloom
