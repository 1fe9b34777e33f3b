import SparseWeights.Proofs.Checked.Arithmetic
import SparseWeights.Proofs.Linear.Cholesky

/-!
Factorising and solving with defined numbers only. The factorisation takes the
root of a pivot that was found to be positive, and the two substitutions divide by
such roots, so none of them leaves the domain of an operation.
-/

namespace SparseWeights.Factor

def checked : {n : ℕ} → Factor ℝ n → Factor Checked n
  | 0, .empty => .empty
  | _ + 1, .border leading row pivot => .border leading.checked row.checked (.number pivot)

variable {n : ℕ}

theorem forward_checked (L : Factor ℝ n) (hL : L.Positive) (b : Vec ℝ n) :
    L.checked.forward b.checked = (L.forward b).checked := by
  induction L with
  | empty =>
      apply Vec.eq_of_get
      exact fun i => i.elim0
  | border leading row pivot ih =>
      obtain ⟨hleading, hpos⟩ := hL
      have hentry := Checked.number_div (b.back - Vec.dot row (leading.forward b.pop))
        hpos.ne'
      rw [checked, forward, forward, Vec.pop_checked, ih hleading, Vec.dot_checked,
        Vec.back_checked, Checked.number_sub, hentry, Vec.push_checked]

theorem backward_checked (L : Factor ℝ n) (hL : L.Positive) (y : Vec ℝ n) :
    L.checked.backward y.checked = (L.backward y).checked := by
  induction L with
  | empty =>
      apply Vec.eq_of_get
      exact fun i => i.elim0
  | border leading row pivot ih =>
      obtain ⟨hleading, hpos⟩ := hL
      have hentry := Checked.number_div y.back hpos.ne'
      rw [checked, backward, backward, Vec.pop_checked, Vec.back_checked, hentry,
        Vec.scale_checked, Vec.sub_checked, ih hleading, Vec.push_checked]

theorem solve_checked (L : Factor ℝ n) (hL : L.Positive) (b : Vec ℝ n) :
    L.checked.solve b.checked = (L.solve b).checked := by
  rw [solve, forward_checked L hL, backward_checked L hL, solve]

theorem solve?_checked (L : Factor ℝ n) (hL : L.Positive) (b : Vec ℝ n) :
    L.checked.solve? b.checked = (L.solve? b).map Vec.checked := by
  rw [solve?, if_pos (Vec.allFinite_checked b), solve_checked L hL, solve?_eq_some,
    Option.map_some]

theorem cholesky?_checked (A : Mat ℝ n n) :
    cholesky? A.checked = (cholesky? A).map checked := by
  induction n with
  | zero => rfl
  | succ n ih =>
    have hblock : A.checked.pop.map (fun row => row.pop) =
        Mat.checked (A.pop.map fun row => row.pop) := by
      rw [← Vector.map_pop, Vector.map_map, Mat.checked, Vector.map_map]
      congr 1
      funext row
      exact Vec.pop_checked row
    have hlast : A.checked.back = Vec.checked A.back := by
      simp
    rw [cholesky?, cholesky?, hblock, ih, hlast]
    cases hleading : cholesky? (A.pop.map fun row => row.pop) with
    | none => rfl
    | some leading =>
        have hforward := forward_checked leading (positive_of_cholesky? hleading) A.back.pop
        simp only [Option.map_some, Option.bind_eq_bind, Option.bind_some, Vec.pop_checked,
          Vec.back_checked, hforward, Vec.dot_checked, Checked.number_sub,
          Checked.zero_eq, Checked.number_lt]
        split
        · rename_i hpos
          -- The root is taken only of what the test found positive.
          rw [Checked.number_sqrt hpos.le]
          rfl
        · rfl

theorem positive_of_ofMatrix? {A : Mat ℝ n n} {L : Factor ℝ n} (h : ofMatrix? A = some L) :
    L.Positive :=
  positive_of_cholesky? (ofMatrix?_eq_cholesky? A ▸ h)

theorem ofMatrix?_checked (A : Mat ℝ n n) :
    ofMatrix? A.checked = (ofMatrix? A).map checked := by
  rw [ofMatrix?_eq_cholesky?, ofMatrix?, if_pos (Mat.allFinite_checked A), cholesky?_checked]

end SparseWeights.Factor
