import SparseWeights.Program.Build
import SparseWeights.Proofs.Error
import SparseWeights.Proofs.Linear.Vec

/-!
Arrays that come from vectors and matrices. Such an array is read back as what
it was made from, so the builders receive every vector and every matrix that a
caller can write down.
-/

namespace SparseWeights

variable {α : Type}

namespace Tensor

theorem pieces_flatten (length : Nat) (rows : List (List α))
    (hrows : ∀ row ∈ rows, row.length = length) :
    pieces length rows.length rows.flatten = rows := by
  induction rows with
  | nil => rfl
  | cons row rest ih =>
      have hrow := hrows row List.mem_cons_self
      have hrest := ih fun other hother => hrows other (List.mem_cons_of_mem _ hother)
      rw [List.length_cons, pieces, List.flatten_cons,
        List.take_left' hrow, List.drop_left' hrow, hrest]

theorem flatten_pieces (length count : Nat) (xs : List α)
    (hxs : xs.length = count * length) : (pieces length count xs).flatten = xs := by
  induction count generalizing xs with
  | zero =>
      rw [Nat.zero_mul] at hxs
      rw [List.eq_nil_of_length_eq_zero hxs]
      rfl
  | succ count ih =>
      have hrest : (xs.drop length).length = count * length := by
        rw [List.length_drop, hxs, Nat.succ_mul, Nat.add_sub_cancel]
      rw [pieces, List.flatten_cons, ih _ hrest, List.take_append_drop]

theorem length_of_mem_pieces {length count : Nat} {xs piece : List α}
    (hxs : xs.length = count * length) (hpiece : piece ∈ pieces length count xs) :
    piece.length = length := by
  induction count generalizing xs with
  | zero => cases hpiece
  | succ count ih =>
      rw [Nat.succ_mul] at hxs
      rcases List.mem_cons.mp hpiece with rfl | hrest
      · rw [List.length_take]
        omega
      · exact ih (by rw [List.length_drop]; omega) hrest

/-- An array of the right shape is not stretched. -/
theorem stretchAxes_self (shape : List Nat) (xs : List α) (hxs : xs.length = volume shape) :
    stretchAxes shape shape xs = xs := by
  induction shape generalizing xs with
  | nil => rfl
  | cons m shape ih =>
      have hparts : (pieces (volume shape) m xs).map (stretchAxes shape shape) =
          pieces (volume shape) m xs := by
        rw [List.map_congr_left fun piece hpiece =>
          ih piece (length_of_mem_pieces hxs hpiece), List.map_id']
      simp only [stretchAxes, if_true, hparts]
      exact flatten_pieces (volume shape) m xs hxs

/-- Lists of one length are combined entry by entry. -/
theorem zipWith_ofList {β γ : Type} (f : α → β → γ) {xs : List α} {ys : List β}
    (hlength : xs.length = ys.length) :
    zipWith f (ofList xs) (ofList ys) = .ok (ofList (List.zipWith f xs ys)) := by
  have hshape : commonShape? (ofList xs).shape (ofList ys).shape = some [ys.length] := by
    simp [ofList, commonShape?, commonReversed?, commonAxis?, hlength]
  have hfirst : stretch (ofList xs).shape [ys.length] (ofList xs).entries = xs := by
    change stretchAxes [xs.length] [ys.length] xs = xs
    rw [hlength]
    exact stretchAxes_self [ys.length] xs (by simp [volume, hlength])
  have hsecond : stretch (ofList ys).shape [ys.length] (ofList ys).entries = ys :=
    stretchAxes_self [ys.length] ys (by simp [volume])
  have hentries : ofEntries? [ys.length] (List.zipWith f xs ys) =
      some (ofList (List.zipWith f xs ys)) := by
    simp [ofEntries?, ofList, volume, hlength]
  rw [zipWith, zipWith?, hshape, Option.bind_eq_bind, Option.bind_some, hfirst, hsecond,
    hentries]
  rfl

theorem size_ofVec {n : Nat} (v : Vec α n) : (ofVec v).size = n := by
  simp [size, ofVec, ofList]

theorem zipWith_ofVec {β γ : Type} {n : Nat} (f : α → β → γ) (u : Vec α n) (v : Vec β n) :
    zipWith f (ofVec u) (ofVec v) = .ok (ofVec (Vector.zipWith f u v)) := by
  rw [ofVec, ofVec, zipWith_ofList f (by simp), ofVec, Vector.toList_zipWith]

theorem map_ofVec {β : Type} {n : Nat} (f : α → β) (v : Vec α n) :
    (ofVec v).map f = ofVec (v.map f) := by
  simp only [ofVec, ofList, map, Vector.toList_map, List.length_map]

theorem pieces_ofMat {m n : Nat} (A : Mat α m n) :
    pieces n m (ofMat A).entries = A.toList.map Vector.toList := by
  have hcut := pieces_flatten n (A.toList.map Vector.toList) (by simp)
  rwa [List.length_map, Vector.length_toList, ← List.flatMap_def] at hcut

theorem toMat?_ofMat [Zero α] {m n : Nat} (A : Mat α m n) :
    (ofMat A).toMat? = some ⟨m, n, A⟩ := by
  have hpieces : pieces n m (A.toList.flatMap Vector.toList) = A.toList.map Vector.toList :=
    pieces_ofMat A
  have hmatrix : matrixOf m n (A.toList.flatMap Vector.toList) = A := by
    apply Vec.eq_of_get
    intro i
    apply Vec.eq_of_get
    intro j
    simp [matrixOf, hpieces, Vec.get_eq_getElem]
  simp only [toMat?, ofMat, hmatrix]

theorem vector?_ofVec {n : Nat} (v : Vec α n) : (ofVec v).vector? = some ⟨n, v⟩ := by
  obtain ⟨entries, rfl⟩ := v
  rfl

theorem asVec?_ofVec {n : Nat} (v : Vec α n) : (ofVec v).asVec? n = some v := by
  obtain ⟨entries, rfl⟩ := v
  have hshape : (ofVec (⟨entries, rfl⟩ : Vec α entries.size)).shape = [entries.size] := by
    simp [ofVec, ofList]
  rw [asVec?, dif_pos hshape]
  rfl

theorem all_flat_ofVec {n : Nat} (v : Vec α n) (p : α → Bool) :
    (ofVec v).flat.all p = v.all p := by
  obtain ⟨entries, rfl⟩ := v
  rfl

/-- Vectors with the same entries, whatever their sizes are called. -/
private theorem sized_eq {k l : Nat} {u : Vec α k} {v : Vec α l}
    (h : u.toList = v.toList) : (⟨k, u⟩ : (n : Nat) × Vec α n) = ⟨l, v⟩ := by
  obtain rfl : k = l := by
    simpa using congrArg List.length h
  rw [Vector.toList_inj.mp h]

theorem vector?_map {β : Type} (t : Tensor α) (f : α → β) :
    (t.map f).vector? = t.vector?.map fun v => ⟨v.1, v.2.map f⟩ := by
  obtain ⟨shape, entries, hentries⟩ := t
  have hflat : (⟨_, flat (map f ⟨shape, entries, hentries⟩)⟩ : (k : Nat) × Vec β k) =
      ⟨_, (flat ⟨shape, entries, hentries⟩).map f⟩ :=
    sized_eq (Vector.toList_map ▸ rfl)
  match shape with
  | [] => rfl
  | [_] => exact congrArg some hflat
  | [k, l] =>
      by_cases hline : k = 1 ∨ l = 1
      · simpa [vector?, hline, map] using hflat
      · simp [vector?, hline, map]
  | _ :: _ :: _ :: _ => rfl

theorem shapesOf?_floats (xs : List Float) :
    shapesOf? (xs.map .float) = some (List.replicate xs.length []) := by
  induction xs with
  | nil => rfl
  | cons x rest ih =>
      rw [List.map_cons, shapesOf?, ih]
      rfl

theorem leavesOfAll_floats (xs : List Float) :
    leavesOfAll (xs.map .float) = xs.map .float := by
  induction xs with
  | nil => rfl
  | cons x rest ih =>
      rw [List.map_cons, leavesOfAll, ih]
      rfl

/-- A list of doubles is read as it stands. -/
theorem ofValue_floats (xs : List Float) :
    ofValue (.list (xs.map .float)) = .ok (ofList xs) := by
  have hshape : shapeOf? (.list (xs.map .float)) = some [xs.length] := by
    rw [shapeOf?, shapesOf?_floats]
    cases xs with
    | nil => rfl
    | cons x rest => simp [stack?, List.replicate_succ]
  have hleaves : leavesOf (.list (xs.map .float)) = xs.map .float := by
    rw [leavesOf, leavesOfAll_floats]
  have hentries : (xs.map Value.float).mapM entryOf = .ok (xs.map id) :=
    mapM_map_eq_ok fun x _ => rfl
  have hkept : ofEntries? [xs.length] xs = some (ofList xs) := by
    simp [ofEntries?, ofList, volume]
  have haxes : decide ([xs.length].length ≤ maxAxes) = true :=
    decide_eq_true (by decide : 1 ≤ maxAxes)
  rw [ofValue, hshape, Option.filter_some, if_pos haxes, hleaves, hentries, List.map_id]
  change (ofEntries? [xs.length] xs).elim _ _ = _
  rw [hkept]
  rfl

end Tensor

/-- A vector is solved for as one. -/
theorem Factor.solveAt_ofVec [Scalar α] {n : Nat} (L : Factor α n) (b : Vec α n) :
    L.solveAt (.ofVec b) =
      (L.solve? b).elim (.error .notFinite) fun x => .ok (.ofVec x) := by
  have hshape : (Tensor.ofVec b).shape = [n] := by
    simp [Tensor.ofVec, Tensor.ofList]
  have hfinite : (Tensor.ofVec b).flat.all Scalar.isFinite = Vec.allFinite b :=
    Tensor.all_flat_ofVec b _
  simp only [solveAt, solve?, hfinite, hshape, Tensor.asVec?_ofVec]
  cases hb : Vec.allFinite b with
  | true => rfl
  | false => rfl

/-- A matrix with as many rows as the system is solved for by its columns. -/
theorem Factor.solveAt_ofMat {n p : ℕ} (L : Factor ℝ n) (B : Mat ℝ n p) :
    L.solveAt (.ofMat B) = .ok (.ofMat (L.solveColumns B)) := by
  have hvector : (Tensor.ofMat B).asVec? n = none := by
    simp [Tensor.asVec?, Tensor.ofMat]
  have hshape : (Tensor.ofMat B).shape = [n, p] := rfl
  simp [solveAt, hvector, hshape, Tensor.toMat?_ofMat]

namespace Program

theorem designOf_ofMat {m n : Nat} (A : Mat ℝ m n) :
    designOf (Tensor.ofMat A) = .ok ⟨m, n, A⟩ := by
  have haxes : (Tensor.ofMat A).shape.length ≠ 1 := by
    simp [Tensor.ofMat]
  rw [designOf, if_neg haxes, Tensor.toMat?_ofMat]
  simp [Mat.allFinite_real]

theorem covarianceOf_ofMat {n : Nat} (A : Mat ℝ n n) :
    covarianceOf (Tensor.ofMat A) = .ok ⟨n, A⟩ := by
  rw [covarianceOf, Tensor.toMat?_ofMat]
  simp [Mat.allFinite_real]

theorem vectorOf_ofVec {n : Nat} (name : String) (v : Vec ℝ n) :
    vectorOf name (Tensor.ofVec v) = .ok ⟨n, v⟩ := by
  rw [vectorOf, Tensor.vector?_ofVec]
  simp [Vec.allFinite_real]

end Program

namespace Value

end Value

namespace Tensor

end Tensor

end SparseWeights
