import Tea.Sampling.Choice
import Tea.Sampling.Rng
import Mathlib.Algebra.Order.Ring.Rat
import Mathlib.Algebra.Field.Rat
/-!
# The auxiliary index is a transparent cache

`AuxIndex.build` counts in one pass and fills in another. Within the budget, the filling loop of a vertex overwrites
exactly the entries counted for it (`FillsReserved`), and a lookup returns the cover that `decompose_to_trunks` would
compute. So on a fresh `Hpat` the sampler is the same program whether the index is active, refused or disabled.
-/

namespace Tea

open Layout Arith

namespace AuxIndex

variable (graph : TemporalGraph) (kMax : List Int) (isSolo : Option (List Bool))

/-- `vertex_L_offset_base_` after the counting pass. -/
def countedBase : List Nat := exclusiveScan 0 ((List.range graph.numVertices).map (lCells graph isSolo))

/-- `entries_start` after the counting pass. -/
def countedStart : List Nat := exclusiveScan 0 ((List.range graph.numVertices).map (reserved graph isSolo))

/-- The filling loop of vertex `u`, from any arenas of the allocated sizes: it stays within the entries reserved for
`u`, leaves none of them out, and fills them with the covers of the prefixes, shortest first. -/
def FillsReserved (u : Nat) : Prop :=
  ∀ s : Filling, s.arena.length = ((List.range graph.numVertices).map (lCells graph isSolo)).sum + 1 →
    s.entries.length = ((List.range graph.numVertices).map (reserved graph isSolo)).sum →
    let lo := (countedStart graph isSolo).getD u 0
    let hi := (countedStart graph isSolo).getD (u + 1) 0
    let filled := fillVertex graph kMax (countedBase graph isSolo) (countedStart graph isSolo) u s
    hi = lo + reserved graph isSolo u ∧ hi ≤ s.entries.length ∧ filled.cur = hi ∧
      (∀ p, ¬ (lo ≤ p ∧ p < hi) → filled.entries[p]? = s.entries[p]?) ∧
      slice filled.entries lo (hi - lo) =
        (List.range (graph.degree u + 1)).flatMap fun L => decomposeToTrunks L (kMax.getD u 0)

variable {graph kMax isSolo}

theorem fillsReserved (h : LevelsReach graph kMax isSolo) {u : Nat} (hu : u < graph.numVertices)
    (hsolo : soloAt isSolo u = false) : FillsReserved graph kMax isSolo u := by
  intro s harena hentries lo hi filled
  have hcovers : covers graph kMax isSolo u =
      (List.range (graph.degree u + 1)).map fun L => decomposeToTrunks L (kMax.getD u 0) := by
    rw [covers, if_neg (by simp [hsolo])]
  have hlo : lo = start (((List.range graph.numVertices).map (covers graph kMax isSolo)).map List.flatten) u :=
    entriesStart_eq h hu.le
  have hlen : u < (((List.range graph.numVertices).map (covers graph kMax isSolo)).map List.flatten).length := by
    simpa using hu
  have hhi : hi = lo + reserved graph isSolo u := by
    rw [hlo, reserved_eq h hu, show hi = _ from entriesStart_eq h hu, start_succ _ _ hlen]
    simp
  rw [cumL_eq kMax] at harena
  rw [cumE_eq h] at hentries
  have hbase : (countedBase graph isSolo).getD u 0 =
      start ((List.range graph.numVertices).map (covers graph kMax isSolo)) u := base_eq kMax hu.le
  obtain ⟨hcells, hfit, -, -⟩ := fillStep_eq (s := s) hu hbase hlo ⟨harena, hentries⟩
  have hcelllen : (cellBlock graph kMax isSolo u).length = lCells graph isSolo u := by simp [cellBlock]
  have hfilled : filled = _ := fillVertex_eq hu hsolo (countedBase graph isSolo) (countedStart graph isSolo) s hlo
    (by omega) hfit
  have hwidth : hi - lo = (covers graph kMax isSolo u).flatten.length := by rw [hhi, reserved_eq h hu]; omega
  rw [← reserved_eq h hu] at hfit
  refine ⟨hhi, by rw [hhi]; exact hfit, ?_, fun p hp => ?_, ?_⟩
  · rw [hfilled, hhi, reserved_eq h hu]
  · rw [hfilled]
    rw [hhi, reserved_eq h hu] at hp
    rw [reserved_eq h hu] at hfit
    rw [getElem?_splice hfit, if_neg hp]
  · rw [hfilled, hwidth]
    rw [reserved_eq h hu] at hfit
    refine (slice_splice hfit).trans ?_
    rw [hcovers, List.flatMap_def]

end AuxIndex

variable {R P : Type} [Arith R]

theorem chooseHpat_eq_of_serves {graph : TemporalGraph} (hg : graph.WellFormed) {aux aux' : AuxIndex}
    (haux : ServesCovers graph aux) (haux' : ServesCovers graph aux') (bias : Bias R P) {u : Nat}
    (hu : u < graph.numVertices) (tPrev : Int) (scratch : SamplerScratch R) :
    chooseHpat graph (Hpat.tables graph bias aux) bias u tPrev scratch =
      chooseHpat graph (Hpat.tables graph bias aux') bias u tPrev scratch := by
  have hcover : ∀ aux, ServesCovers graph aux → soloOfDegree (graph.degree u) = false →
      (if (Hpat.tables graph bias aux).auxIndex.active = true then
          (Hpat.tables graph bias aux).auxIndex.coverFor u (graph.candidateSetLen u tPrev)
        else decomposeToTrunks (graph.candidateSetLen u tPrev) (kMaxOfDegree (graph.degree u))) =
        candidateCover graph u tPrev := by
    intro aux haux hflag
    split_ifs with hactive
    · exact haux hactive u hu hflag _ (hg.candidateSetLen_le hu tPrev)
    · rfl
  unfold chooseHpat
  dsimp only
  rw [Hpat.isSoloAt_tables hu, Hpat.isSoloAt_tables hu, Hpat.kMaxOf_tables hu, Hpat.kMaxOf_tables hu]
  by_cases hflag : soloOfDegree (graph.degree u) = true
  · rw [if_pos hflag, if_pos hflag]
    rfl
  · have hflag' : soloOfDegree (graph.degree u) = false := by simpa using hflag
    rw [if_neg hflag, if_neg hflag, hcover aux haux hflag', hcover aux' haux' hflag']
    rfl

/-- **The auxiliary index is a transparent cache.** Whenever `AuxIndex::build` succeeds, for levels that reach the
degrees, every non-solo vertex fills exactly what was reserved for it and every lookup is the cover computed on the
fly. And on tables of a built graph that leave no older index in use `sample_hpat` returns the same and leaves the same
generator state for any two budgets, whether the index fits, is refused or is disabled. -/
theorem aux_index_transparent (S : StdSort) (self : TemporalGraph) {edges : List Edge} {numVertices : Int}
    {isDirected : Bool} (σ : Schedule edges isDirected) (hin : EndpointsIn edges (vertexCount edges numVertices)) :
    (∀ (graph : TemporalGraph) (kMax : List Int) (isSolo : Option (List Bool)) (self : AuxIndex)
        (memoryBudgetBytes : Nat) (τ : ForSchedule graph.numVertices), AuxIndex.LevelsReach graph kMax isSolo →
        (self.build graph kMax isSolo memoryBudgetBytes τ).2 = true →
        ∀ u < graph.numVertices, AuxIndex.soloAt isSolo u = false →
          AuxIndex.FillsReserved graph kMax isSolo u ∧
          (∀ L ≤ graph.degree u, (self.build graph kMax isSolo memoryBudgetBytes τ).1.coverFor u L =
            decomposeToTrunks L (kMax.getD u 0)) ∧
          (self.build graph kMax isSolo memoryBudgetBytes τ).1.coverFor u 0 = []) ∧
    let graph := TemporalGraph.build S self edges numVertices isDirected σ
    ∀ (bias : Bias R P) (hpat hpat' : Hpat R P) (budget budget' : Nat) (τ τ' ρ ρ' : ForSchedule graph.numVertices)
      (u : Int), hpat.Renews budget → hpat'.Renews budget' → 0 ≤ u → u < graph.numVertices →
      ∀ (tPrev : Int) (scratch : SamplerScratch R) (γ : Type) (g : Generator R γ) (s : γ),
        (sampleHpat graph (hpat.build graph bias budget τ τ') bias u tPrev scratch).run g s =
          (sampleHpat graph (hpat'.build graph bias budget' ρ ρ') bias u tPrev scratch).run g s := by
  constructor
  · intro graph kMax isSolo self budget τ hreach hbuilt u hu hsolo
    have hbuild := AuxIndex.build_eq hreach self budget τ
    split_ifs at hbuild with hbudget
    · rw [hbuild] at hbuilt
      exact absurd hbuilt Bool.false_ne_true
    · have hcover : ∀ L ≤ graph.degree u, (AuxIndex.index graph kMax isSolo).coverFor u L =
          decomposeToTrunks L (kMax.getD u 0) := fun L hL => AuxIndex.coverFor_index hu hsolo hL
      rw [hbuild]
      exact ⟨AuxIndex.fillsReserved hreach hu hsolo, hcover,
        (hcover 0 (Nat.zero_le _)).trans (decomposeToTrunks_zero _)⟩
  · intro graph bias hpat hpat' budget budget' τ τ' ρ ρ' u hrenews hrenews' hnonneg hlt tPrev scratch γ g s
    have hg : graph.WellFormed := TemporalGraph.build_wellFormed S self σ hin
    have hu : u.toNat < graph.numVertices := by omega
    obtain ⟨aux, haux, htables⟩ := Hpat.build_renewed hg bias hrenews τ τ'
    obtain ⟨aux', haux', htables'⟩ := Hpat.build_renewed hg bias hrenews' ρ ρ'
    rw [htables, htables']
    unfold sampleHpat
    rw [chooseHpat_eq_of_serves hg haux haux' bias hu]

/-- The index of three vertices, and a hierarchical vertex sampled with the index and without. -/
theorem aux_index_transparent_example :
    let graph : TemporalGraph := ⟨3, [0, 3, 3, 4], [1, 2, 1, 0], [1, 2, 3, 4]⟩
    (∀ L ≤ graph.degree 0, (AuxIndex.build {} graph [1, -1, 0] none 200 (ForSchedule.serial 3)).1.coverFor 0 L =
      decomposeToTrunks L 1) ∧
    kHpatDegreeThreshold < hub.degree 1 ∧
    (sampleHpat hub (Hpat.build {} hub linearBias kAuxIndexMaxBytes (ForSchedule.serial _) (ForSchedule.serial _))
        linearBias 1 95 {}).run (Pcg64.generator ℚ).toGenerator (Pcg64.seedWith 1 2) =
      (sampleHpat hub (Hpat.build {} hub linearBias 0 (ForSchedule.serial _) (ForSchedule.serial _))
        linearBias 1 95 {}).run (Pcg64.generator ℚ).toGenerator (Pcg64.seedWith 1 2) := by
  intro graph
  have h := aux_index_transparent (R := ℚ) (P := Unit) StdSort.stable {} (Schedule.serial hubEdges true)
    endpointsIn_hubEdges
  have hn : hub.numVertices = 3 := hub_storesInput.numVertices
  refine ⟨?_, degree_hub.2.1 ▸ by decide, ?_⟩
  · exact (h.1 graph [1, -1, 0] none {} 200 (ForSchedule.serial 3) (by unfold AuxIndex.LevelsReach; decide)
      (by decide) 0 (by decide) rfl).2.1
  · rw [hub_eq] at h
    exact h.2 linearBias {} {} kAuxIndexMaxBytes 0 _ _ _ _ 1 (Hpat.renews_fresh _) (Hpat.renews_fresh _) (by decide)
      (by rw [hn]; decide) 95 {} Pcg64 _ _

end Tea
