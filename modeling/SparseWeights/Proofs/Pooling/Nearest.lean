import SparseWeights.Proofs.Pooling.Projection

/-!
Pooling gives nearest points. The means of the blocks alone are the nearest
sequence that falls; with zero in place of every negative mean they are the
nearest sequence that falls and is not negative, so nothing is lost by looking
after the sign last. The second fact follows from the conditions of
`IsProjection`. The first one is the second one for numbers that have been
raised until no mean is negative: raising keeps the places of the blocks and the
order of their means, and the sign then has nothing to do.
-/

namespace SparseWeights

open Finset

variable {n : ℕ}

namespace Vec

/-- The one member of a set that is nearest to a vector. -/
def IsNearest (members : Set (Vec ℝ n)) (s z : Vec ℝ n) : Prop :=
  z ∈ members ∧ ∀ u ∈ members, u ≠ z → distanceSq s z < distanceSq s u

/-- The vectors with no entry larger than the one in front of it. -/
def falling (n : ℕ) : Set (Vec ℝ n) := {z | Antitone z.get}

/-- The falling vectors without negative entries. -/
def fallingNonneg (n : ℕ) : Set (Vec ℝ n) := {z | Antitone z.get ∧ ∀ i, 0 ≤ z.get i}

/-- A member is nearest if the way from it to the vector leads towards no other
member. -/
theorem isNearest_of_dot_nonpos {members : Set (Vec ℝ n)} {s z : Vec ℝ n}
    (hz : z ∈ members) (hdot : ∀ u ∈ members, dot (sub s z) (sub u z) ≤ 0) :
    IsNearest members s z := by
  refine ⟨hz, fun u hu hne => ?_⟩
  have hdistance : 0 < distanceSq u z :=
    (distanceSq_nonneg u z).lt_of_ne' (distanceSq_eq_zero_iff.not.mpr hne)
  have hobtuse := hdot u hu
  rw [distanceSq_eq_add s z u]
  linarith

end Vec

namespace IsProjection

variable {s z : ℕ → ℝ} (hz : IsProjection n s z)

include hz

theorem sum_sub_mul_sub_nonpos {u : ℕ → ℝ} (hu : Antitone u) (hnonneg : 0 ≤ u n) :
    ∑ k ∈ range n, (s k - z k) * (u k - z k) ≤ 0 := by
  have hsums := Falling.sum_mul_le_sum_mul hu hnonneg hz.prefix_le
  have hright := hz.sum_sub_mul_eq_zero
  calc
    ∑ k ∈ range n, (s k - z k) * (u k - z k) =
        ∑ k ∈ range n, s k * u k - ∑ k ∈ range n, z k * u k -
          ∑ k ∈ range n, (s k - z k) * z k := by
          rw [← sum_sub_distrib, ← sum_sub_distrib]
          exact sum_congr rfl fun k _ => by ring
    _ ≤ 0 := by linarith

/-- The condition of a nearest point, also for a vector that was raised before. -/
theorem dot_nonpos {t x u : Vec ℝ n} {amount : ℝ} (hs : ∀ i : Fin n, s i = t.get i + amount)
    (hx : ∀ i : Fin n, z i = x.get i + amount) (hu : Antitone u.get)
    (hnonneg : ∀ i, 0 ≤ u.get i + amount) :
    Vec.dot (Vec.sub t x) (Vec.sub u x) ≤ 0 := by
  have hraised : Antitone fun i => u.get i + amount := fun i j hij =>
    add_le_add_left (hu hij) amount
  have hsum := hz.sum_sub_mul_sub_nonpos (Falling.extend_antitone _ hraised hnonneg)
    (Falling.extend_nonneg _ hnonneg n)
  rw [← Fin.sum_univ_eq_sum_range fun k => (s k - z k) *
    (Falling.extend (fun i => u.get i + amount) k - z k)] at hsum
  refine le_of_eq_of_le ?_ hsum
  rw [Vec.dot_eq_dotProduct, dotProduct]
  apply sum_congr rfl
  intro i _
  rw [Vec.get_sub, Vec.get_sub, Falling.extend_val, hs, hx]
  ring

end IsProjection

section Means

variable {α : Type} [Scalar α]

/-- The mean of the topmost block that covers a place, or zero. -/
def Block.meanAt : List (Block α) → ℕ → α
  | [], _ => 0
  | b :: rest, k => if b.first ≤ k ∧ k ≤ b.last then b.mean else meanAt rest k

/-- The means of the blocks of a sequence, at the places of their entries. -/
def pooledMeans (s : Vec α n) : Vec α n :=
  Vector.ofFn fun k => Block.meanAt (Block.ofSequence s) k

theorem Block.levelAt_eq_larger {stack : List (Block α)} {stop k : ℕ} (other : α)
    (htiles : Tiles stack stop) (hk : k < stop) :
    levelAt other stack k = Scalar.larger (meanAt stack k) 0 := by
  induction stack generalizing stop with
  | nil =>
      obtain rfl : stop = 0 := htiles
      omega
  | cons b rest ih =>
      obtain ⟨hlast, _, hrest⟩ := htiles
      rw [levelAt, meanAt]
      split
      · rfl
      · exact ih hrest (by omega)

/-- The order in which blocks are pooled and signs are looked after, place by place. -/
theorem project_eq_map_pooledMeans (s : Vec α n) :
    project s = (pooledMeans s).map fun mean => Scalar.larger mean 0 := by
  apply Vec.eq_of_get
  intro k
  rw [project_get, Block.levelAt_eq_larger 0 (Block.ofSequence_tiles s) k.isLt]
  simp [pooledMeans]

end Means

namespace Block

variable {s : ℕ → ℝ} {amount : ℝ}

/-- A block with all its entries raised by the same amount. -/
noncomputable def raise (amount : ℝ) (b : Block ℝ) : Block ℝ :=
  ⟨b.first, b.last, b.total + ((b.last : ℝ) + 1 - b.first) * amount, b.mean + amount⟩

@[simp] theorem raise_first (b : Block ℝ) : (raise amount b).first = b.first := rfl

@[simp] theorem raise_last (b : Block ℝ) : (raise amount b).last = b.last := rfl

@[simp] theorem raise_total (b : Block ℝ) :
    (raise amount b).total = b.total + ((b.last : ℝ) + 1 - b.first) * amount := rfl

@[simp] theorem raise_mean (b : Block ℝ) : (raise amount b).mean = b.mean + amount := rfl

theorem tiles_raise {stack : List (Block ℝ)} {stop : ℕ} (htiles : Tiles stack stop) :
    Tiles (stack.map (raise amount)) stop := by
  induction stack generalizing stop with
  | nil => exact htiles
  | cons b rest ih =>
      obtain ⟨hlast, hb, hrest⟩ := htiles
      exact ⟨hlast, hb, ih hrest⟩

theorem falls_raise {stack : List (Block ℝ)} (hfalls : Falls stack) :
    Falls (stack.map (raise amount)) := by
  apply List.isChain_map_of_isChain _ _ hfalls
  intro upper lower hmean
  simpa using hmean

/-- The sum over an interval of raised numbers. -/
private theorem sum_raise {p q : ℕ} (hpq : p ≤ q) :
    ∑ k ∈ Ico p q, (s k + amount) = ∑ k ∈ Ico p q, s k + ((q : ℝ) - p) * amount := by
  rw [sum_add_distrib, sum_const, Nat.card_Ico, nsmul_eq_mul, Nat.cast_sub hpq]

theorem pooled_raise {b : Block ℝ} (hb : Pooled s b) (hplaces : b.first ≤ b.last) :
    Pooled (fun k => s k + amount) (raise amount b) := by
  refine ⟨?_, ?_, ?_⟩
  · rw [raise_total, raise_first, raise_last, hb.total_eq, sum_raise (by omega)]
    push_cast
    rfl
  · rw [raise_total, raise_first, raise_last, raise_mean, ← hb.mean_eq]
    ring
  · intro m hfirst hlast
    rw [raise_first] at hfirst ⊢
    rw [raise_mean, sum_raise hfirst, mul_add]
    exact add_le_add_left (hb.start_le m hfirst hlast) _

/-- No sign is left to look after once all means have been raised above zero. -/
theorem levelAt_raise {stack : List (Block ℝ)} {stop k : ℕ} (htiles : Tiles stack stop)
    (hk : k < stop) (hmeans : ∀ b ∈ stack, 0 ≤ b.mean + amount) :
    levelAt 0 (stack.map (raise amount)) k = meanAt stack k + amount := by
  induction stack generalizing stop with
  | nil =>
      obtain rfl : stop = 0 := htiles
      omega
  | cons b rest ih =>
      obtain ⟨hlast, _, hrest⟩ := htiles
      rw [List.map_cons, levelAt, meanAt, raise_first, raise_last]
      split
      · rw [level_eq_max, raise_mean]
        exact max_eq_left (hmeans b (by simp))
      · exact ih hrest (by omega) fun c hc => hmeans c (by simp [hc])

end Block

/-- The means of the blocks, raised until none is negative, are the projection of
the raised sequence. -/
theorem isProjection_raise (s : Vec ℝ n) {amount : ℝ}
    (hmeans : ∀ b ∈ Block.ofSequence s, 0 ≤ b.mean + amount) :
    ∃ z, IsProjection n (fun k => Falling.extend s.get k + amount) z ∧
      ∀ i : Fin n, z i = (pooledMeans s).get i + amount := by
  obtain ⟨htiles, hfalls, hpooled⟩ := Block.ofSequence_pooled s
  refine ⟨Block.levelAt 0 ((Block.ofSequence s).map (Block.raise amount)), ?_, ?_⟩
  · apply isProjection_levelAt (Block.tiles_raise htiles) (Block.falls_raise hfalls)
    intro raised hraised
    obtain ⟨b, hb, rfl⟩ := List.mem_map.mp hraised
    exact Block.pooled_raise (hpooled b hb) (htiles.first_le_last hb)
  · intro i
    rw [Block.levelAt_raise htiles i.isLt hmeans]
    simp [pooledMeans]

/-- Finitely many numbers are raised above zero by one amount. -/
private theorem exists_raise (s u : Vec ℝ n) :
    ∃ amount, (∀ b ∈ Block.ofSequence s, 0 ≤ b.mean + amount) ∧
      ∀ i, 0 ≤ u.get i + amount := by
  obtain ⟨amount, hamount⟩ := ((Block.ofSequence s).map fun b => -b.mean).toFinset ∪
    univ.image (fun i => -u.get i) |>.exists_le
  refine ⟨amount, fun b hb => ?_, fun i => ?_⟩
  · have hle := hamount (-b.mean) (mem_union_left _ (List.mem_toFinset.mpr
      (List.mem_map_of_mem hb)))
    linarith
  · have hle := hamount (-u.get i) (mem_union_right _ (mem_image_of_mem _ (mem_univ i)))
    linarith

theorem pooledMeans_isNearest (s : Vec ℝ n) :
    Vec.IsNearest (Vec.falling n) s (pooledMeans s) := by
  apply Vec.isNearest_of_dot_nonpos
  · obtain ⟨amount, hmeans, _⟩ := exists_raise s s
    obtain ⟨z, hz, hentries⟩ := isProjection_raise s hmeans
    intro i j hij
    have hle := hz.antitone hij
    rw [hentries, hentries] at hle
    linarith
  · intro u hu
    obtain ⟨amount, hmeans, hnonneg⟩ := exists_raise s u
    obtain ⟨z, hz, hentries⟩ := isProjection_raise s hmeans
    exact hz.dot_nonpos (fun i => by rw [Falling.extend_val]) hentries hu hnonneg

theorem project_mem_fallingNonneg (s : Vec ℝ n) : project s ∈ Vec.fallingNonneg n := by
  have hz := project_isProjection s
  constructor
  · intro i j hij
    simpa using hz.antitone (Fin.val_fin_le.mpr hij)
  · intro i
    simpa using hz.nonneg i

/-- Pooling neighbours and then looking after the sign gives the one nearest
sequence that falls and is not negative. The means alone are the one nearest
sequence that falls. -/
theorem project_isNearest (s : Vec ℝ n) :
    Vec.IsNearest (Vec.fallingNonneg n) s (project s) ∧
      Vec.IsNearest (Vec.falling n) s (pooledMeans s) ∧
      project s = (pooledMeans s).map fun mean => max mean 0 := by
  refine ⟨?_, pooledMeans_isNearest s, ?_⟩
  · apply Vec.isNearest_of_dot_nonpos (project_mem_fallingNonneg s)
    rintro u ⟨hfalls, hnonneg⟩
    have hentries (x : Vec ℝ n) (i : Fin n) : Falling.extend x.get i = x.get i + 0 := by simp
    exact (project_isProjection s).dot_nonpos (hentries s) (hentries (project s)) hfalls
      (by simpa using hnonneg)
  · rw [project_eq_map_pooledMeans]
    simp only [Scalar.larger_eq_max]

/-- An entry that exceeds the one in front of it is pooled with it; the entry
behind them is negative and is kept apart. -/
private theorem ofSequence_triple : Block.ofSequence (#v[1, 3, -2] : Vec ℝ 3) =
    [⟨2, 2, -2, -2⟩, ⟨0, 1, 4, 2⟩] := by
  have hpool : (1 : ℝ) ≤ 3 := by norm_num
  have hapart : ¬(2 : ℝ) ≤ -2 := by norm_num
  have htotal : (1 : ℝ) + 3 = 4 := by norm_num
  have hmean : (4 : ℝ) / 2 = 2 := by norm_num
  simp [Block.ofSequence, List.finRange_succ, Block.settle, Block.single, Block.merge,
    Vec.get_eq_getElem, hpool, htotal, hmean, hapart]

/-- The sign takes one entry of the nearest falling sequence up to zero. -/
theorem project_isNearest_triple :
    project (#v[1, 3, -2] : Vec ℝ 3) = #v[2, 2, 0] ∧
      Vec.IsNearest (Vec.fallingNonneg 3) #v[1, 3, -2] #v[2, 2, 0] ∧
      Vec.IsNearest (Vec.falling 3) #v[1, 3, -2] #v[2, 2, -2] := by
  obtain ⟨hnearest, hmeans, hclamp⟩ := project_isNearest #v[1, 3, -2]
  have hpooled : pooledMeans (#v[1, 3, -2] : Vec ℝ 3) = #v[2, 2, -2] := by
    apply Vec.eq_of_get
    intro i
    rw [pooledMeans, Vec.get_ofFn, ofSequence_triple]
    fin_cases i <;> simp [Block.meanAt, Vec.get_eq_getElem]
  have hproject : project (#v[1, 3, -2] : Vec ℝ 3) = #v[2, 2, 0] := by
    rw [hclamp, hpooled]
    simp
  rw [hproject] at hnearest
  rw [hpooled] at hmeans
  exact ⟨hproject, hnearest, hmeans⟩

end SparseWeights
