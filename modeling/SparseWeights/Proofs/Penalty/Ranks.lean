import Mathlib.Data.Fin.Tuple.Sort
import SparseWeights.Penalty.Basic
import SparseWeights.Proofs.Falling
import SparseWeights.Proofs.Linear.Vec

/-!
The magnitudes of a vector by rank. A vector may be put in order by more than
one permutation of its places, since places of equal magnitude may stand either
way; the magnitudes in order are the same for all of them. Of all choices of so
many places the first ones have the largest sum of magnitudes.
-/

namespace SparseWeights

open Finset

variable {n : ℕ}

namespace Vec

/-- The permutation lists the places of a vector by falling magnitude. -/
def Ranks (v : Vec ℝ n) (places : Equiv.Perm (Fin n)) : Prop :=
  Antitone fun k => |v.get (places k)|

/-- The magnitude of every rank, and zero behind the last one. -/
noncomputable def ranked (v : Vec ℝ n) (k : ℕ) : ℝ :=
  (descending v).getD k 0

theorem precedes_eq (y : Vec ℝ n) (i j : Fin n) :
    precedes y i j = decide (|y.get j| ≤ |y.get i|) := by
  simp [precedes]

/-- A list of all places by falling magnitude is a permutation of them. -/
theorem exists_ranks_of_pairwise {y : Vec ℝ n} {order : List (Fin n)}
    (hperm : order.Perm (List.finRange n))
    (hsorted : order.Pairwise fun i j => |y.get j| ≤ |y.get i|) :
    ∃ places : Equiv.Perm (Fin n), order = List.ofFn places ∧ y.Ranks places := by
  have hlength : order.length = n := by
    simpa using hperm.length_eq
  have hnodup : order.Nodup := hperm.nodup_iff.mpr (List.nodup_finRange n)
  let place (k : Fin n) : Fin n := order.get (k.cast hlength.symm)
  have hinjective : Function.Injective place := by
    intro j k hjk
    have hcast := List.nodup_iff_injective_get.mp hnodup hjk
    exact Fin.cast_injective _ hcast
  let places : Equiv.Perm (Fin n) := Equiv.ofBijective place
    (Finite.injective_iff_bijective.mp hinjective)
  have horder : order = List.ofFn places := by
    apply List.ext_get
    · simp [hlength]
    · intro k hleft hright
      rw [List.get_ofFn]
      rfl
  refine ⟨places, horder, ?_⟩
  rw [horder, List.pairwise_ofFn] at hsorted
  intro j k hjk
  rcases hjk.eq_or_lt with rfl | hlt
  · exact le_rfl
  · exact hsorted hlt

theorem order_perm (y : Vec ℝ n) : (order y).Perm (List.finRange n) :=
  List.mergeSort_perm _ _

theorem order_pairwise (y : Vec ℝ n) :
    (order y).Pairwise fun i j => |y.get j| ≤ |y.get i| := by
  have hsorted : (order y).Pairwise fun i j => precedes y i j = true := by
    apply List.pairwise_mergeSort
    · intro i j k hij hjk
      simp only [precedes_eq, decide_eq_true_eq] at hij hjk ⊢
      exact hjk.trans hij
    · intro i j
      simp only [precedes_eq, Bool.or_eq_true, decide_eq_true_eq]
      exact le_total _ _
  exact hsorted.imp fun h => by simpa [precedes_eq] using h

theorem exists_ranks (v : Vec ℝ n) :
    ∃ places : Equiv.Perm (Fin n), order v = List.ofFn places ∧ v.Ranks places :=
  exists_ranks_of_pairwise (order_perm v) (order_pairwise v)

/-- The sorted magnitudes are the same whichever way ties are put. -/
theorem descending_eq_ofFn {v : Vec ℝ n} {places : Equiv.Perm (Fin n)}
    (hplaces : v.Ranks places) :
    descending v = List.ofFn fun k => |v.get (places k)| := by
  have hsorted : (descending v).Pairwise
      fun a b => (Scalar.isNaN a || decide (b ≤ a)) = true := by
    apply List.pairwise_mergeSort
    · intro a b c hab hbc
      simp only [Scalar.isNaN_eq_false, Bool.false_or, decide_eq_true_eq] at hab hbc ⊢
      exact hbc.trans hab
    · intro a b
      simp only [Scalar.isNaN_eq_false, Bool.false_or, Bool.or_eq_true,
        decide_eq_true_eq]
      exact le_total _ _
  have hfalling : (descending v).Pairwise (· ≥ ·) :=
    hsorted.imp fun h => by simpa using h
  have hranked : (List.ofFn fun k => |v.get (places k)|).Pairwise (· ≥ ·) := by
    rw [List.pairwise_ofFn]
    intro j k hjk
    exact hplaces hjk.le
  have hperm : (descending v).Perm (List.ofFn fun k => |v.get (places k)|) := by
    have hentries : (magnitudes v).toList = List.ofFn fun i => |v.get i| := by
      rw [toList_eq_ofFn]
      congr 1
      funext i
      simp
    refine (List.mergeSort_perm _ _).trans ?_
    rw [hentries]
    exact (places.ofFn_comp_perm fun i => |v.get i|).symm
  exact hperm.eq_of_pairwise (fun a b _ _ hab hba => le_antisymm hba hab)
    hfalling hranked

theorem ofFn_getD_zero (f : Fin n → ℝ) (k : ℕ) :
    (List.ofFn f).getD k 0 = Falling.extend f k := by
  by_cases hk : k < n
  · simp [Falling.extend, hk]
  · simp [Falling.extend, hk]

theorem Ranks.antitone_extend {v : Vec ℝ n} {places : Equiv.Perm (Fin n)}
    (hplaces : v.Ranks places) : Antitone (Falling.extend fun k => |v.get (places k)|) :=
  Falling.extend_antitone _ hplaces fun _ => abs_nonneg _

theorem ranked_eq_extend {v : Vec ℝ n} {places : Equiv.Perm (Fin n)}
    (hplaces : v.Ranks places) :
    ranked v = Falling.extend fun k => |v.get (places k)| := by
  funext k
  rw [ranked, descending_eq_ofFn hplaces, ofFn_getD_zero]

theorem extend_scale (a : ℝ) (v : Vec ℝ n) (k : ℕ) :
    Falling.extend (scale a v).get k = a * Falling.extend v.get k := by
  unfold Falling.extend
  split
  · simp
  · simp

theorem ranked_antitone (v : Vec ℝ n) : Antitone (ranked v) := by
  obtain ⟨places, _, hplaces⟩ := exists_ranks v
  rw [ranked_eq_extend hplaces]
  exact hplaces.antitone_extend

theorem ranked_nonneg (v : Vec ℝ n) (k : ℕ) : 0 ≤ ranked v k := by
  obtain ⟨places, _, hplaces⟩ := exists_ranks v
  rw [ranked_eq_extend hplaces]
  exact Falling.extend_nonneg _ (fun _ => abs_nonneg _) k

theorem sum_ranked (v : Vec ℝ n) : ∑ k ∈ range n, ranked v k = ∑ i, |v.get i| := by
  obtain ⟨places, _, hplaces⟩ := exists_ranks v
  have hsum := Falling.sum_extend_mul (fun k => |v.get (places k)|) fun _ => 1
  simp only [mul_one] at hsum
  rw [ranked_eq_extend hplaces, hsum]
  exact Equiv.sum_comp places fun i => |v.get i|

/-- The first entries in an order of places are a choice of as many places. -/
theorem exists_chosen_first (f : Fin n → ℝ) (places : Equiv.Perm (Fin n)) {m : ℕ}
    (hm : m ≤ n) :
    ∃ chosen : Finset (Fin n), chosen.card = m ∧
      ∑ k ∈ range m, Falling.extend (fun k => f (places k)) k = ∑ i ∈ chosen, f i := by
  refine ⟨(univ : Finset (Fin m)).map
    ((Fin.castLEEmb hm).trans places.toEmbedding), by simp, ?_⟩
  rw [sum_map, ← Fin.sum_univ_eq_sum_range]
  apply sum_congr rfl
  intro k _
  exact Falling.extend_val (fun k => f (places k)) (Fin.castLE hm k)

/-- The ranks of chosen places, seen as numbers. -/
def rankSet (places : Equiv.Perm (Fin n)) (chosen : Finset (Fin n)) : Finset ℕ :=
  chosen.map (places.symm.toEmbedding.trans Fin.valEmbedding)

@[simp] theorem card_rankSet (places : Equiv.Perm (Fin n)) (chosen : Finset (Fin n)) :
    (rankSet places chosen).card = chosen.card := by
  simp [rankSet]

theorem sum_rankSet (places : Equiv.Perm (Fin n)) (chosen : Finset (Fin n))
    (f : ℕ → ℝ) : ∑ k ∈ rankSet places chosen, f k = ∑ i ∈ chosen, f (places.symm i) := by
  rw [rankSet, sum_map]
  rfl

theorem rankSet_subset (places : Equiv.Perm (Fin n)) (chosen : Finset (Fin n)) :
    rankSet places chosen ⊆ range n := by
  intro k hk
  obtain ⟨i, _, rfl⟩ := mem_map.mp hk
  simp

/-- What falls with the ranks sums, over so many places chosen at will, to no more
than over as many ranks from the first one on. -/
theorem sum_rank_le {f : ℕ → ℝ} (hf : Antitone f) (places : Equiv.Perm (Fin n))
    (chosen : Finset (Fin n)) :
    ∑ i ∈ chosen, f (places.symm i) ≤ ∑ k ∈ range chosen.card, f k := by
  have hinside := rankSet_subset places chosen
  rw [range_eq_Ico] at hinside
  have hfirst := Falling.sum_le_sum_first (hf.antitoneOn _) hinside
  rwa [sum_rankSet, card_rankSet, zero_add, ← range_eq_Ico] at hfirst

/-- So many places, chosen at will, have no larger magnitudes than as many
ranks from the first one on. -/
theorem sum_abs_le_sum_ranked (v : Vec ℝ n) (chosen : Finset (Fin n)) :
    ∑ i ∈ chosen, |v.get i| ≤ ∑ k ∈ range chosen.card, ranked v k := by
  obtain ⟨places, _, hplaces⟩ := exists_ranks v
  refine le_of_eq_of_le ?_ (sum_rank_le (ranked_antitone v) places chosen)
  apply sum_congr rfl
  intro i _
  simp [ranked_eq_extend hplaces]

end Vec

end SparseWeights
