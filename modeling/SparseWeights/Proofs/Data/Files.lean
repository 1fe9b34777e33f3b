import SparseWeights.Data.Files
import SparseWeights.Proofs.Error

/-!
Writing files. What was written to a path is read from it afterwards, because a
path leads to the same place as before: writing a file makes no directory. If
there is room for a file depends on its path only, not on its text, and where
there is none no file changes.
-/

namespace SparseWeights.Files

/-- Where a path leads depends on the directories only. -/
theorem locate_of_folders {files after : Files} {p : Path} {place : Place}
    (h : files.locate p = .ok place) (hfolders : after.folders = files.folders) :
    after.locate p = .ok place := by
  rw [locate] at h ⊢
  obtain ⟨p', hp', h⟩ := bind_eq_ok_iff.mp h
  rw [hp']
  change p'.parts.foldlM _ p.origin = _
  generalize p.origin = start, p'.parts = parts at h ⊢
  induction parts generalizing start with
  | nil => exact h
  | cons part rest ih =>
      rw [List.foldlM_cons] at h ⊢
      obtain ⟨next, hnext, h⟩ := bind_eq_ok_iff.mp h
      refine bind_eq_ok_iff.mpr ⟨next, ?_, ih next h⟩
      split at hnext
      next hfolder =>
        rw [if_pos (by rwa [hasFolder, hfolders])]
        exact hnext
      next => cases hnext

theorem write_eq_ok_iff {files after : Files} {p : Path} {text : String} :
    files.write p text = .ok after ↔ ∃ place, files.locate p = .ok place ∧
      files.hasFolder place = false ∧ after = files.store place text := by
  rw [write, bind_eq_ok_iff]
  refine exists_congr fun place => and_congr_right fun _ => ?_
  cases files.hasFolder place with
  | true => simp
  | false => simp [pure, Except.pure, eq_comm]

/-- Whether a text stays that is put at a path: there can be a file at it, and it is not the null
device. -/
def keeps (files : Files) (p : Path) : Bool :=
  match (do
    let made ← files.makeFolder p.parent
    let place ← made.locate p
    return !made.hasFolder place && place != Place.nullDevice) with
  | .ok stays => stays
  | .error _ => false

theorem keeps_iff {files : Files} {p : Path} :
    files.keeps p = true ↔ ∃ made place, files.makeFolder p.parent = .ok made ∧
      made.locate p = .ok place ∧ made.hasFolder place = false ∧ place ≠ Place.nullDevice := by
  rw [keeps]
  cases hmade : files.makeFolder p.parent with
  | error cause => simp [bind, Except.bind]
  | ok made =>
      cases hplace : made.locate p with
      | error cause => simp [bind, Except.bind, hplace]
      | ok place => simp [bind, Except.bind, pure, Except.pure, hplace]

theorem exists_put {files : Files} {p : Path} (hkeeps : files.keeps p = true) (text : String) :
    ∃ after, files.put p text = .ok after ∧ after.read p = .ok text := by
  obtain ⟨made, place, hmade, hplace, hfolder, hdevice⟩ := keeps_iff.mp hkeeps
  refine ⟨made.store place text, bind_eq_ok_iff.mpr ⟨made, hmade,
    write_eq_ok_iff.mpr ⟨place, hplace, hfolder, rfl⟩⟩, ?_⟩
  rw [store, if_neg hdevice]
  refine bind_eq_ok_iff.mpr ⟨place, locate_of_folders hplace rfl, ?_⟩
  simp [textAt?, pure, Except.pure]

theorem entries_makeFoldersFrom (files : Files) (place : Place) (parts : List String) :
    (files.makeFoldersFrom place parts).1.entries = files.entries := by
  induction parts generalizing files place with
  | nil => rfl
  | cons part rest ih =>
      rw [makeFoldersFrom]
      split
      · rfl
      · split
        · rfl
        · rw [ih]
          split <;> rfl

theorem entries_makeFolders (files : Files) (p : Path) :
    (files.makeFolders p).1.entries = files.entries := by
  rw [makeFolders]
  split
  · rfl
  · exact entries_makeFoldersFrom files _ _

theorem entries_makeFolder {files made : Files} {p : Path} (h : files.makeFolder p = .ok made) :
    made.entries = files.entries := by
  have hentries := files.entries_makeFolders p
  rw [makeFolder] at h
  split at h
  next hmade =>
    obtain rfl := Except.ok.inj h
    rwa [hmade] at hentries
  next => cases h

/-- Where no text stays no file changes. -/
theorem entries_put {files after : Files} {p : Path} {text : String}
    (h : files.put p text = .ok after) (hkeeps : files.keeps p = false) :
    after.entries = files.entries := by
  obtain ⟨made, hmade, hwrite⟩ := bind_eq_ok_iff.mp h
  obtain ⟨place, hplace, hfolder, rfl⟩ := write_eq_ok_iff.mp hwrite
  by_cases hdevice : place = Place.nullDevice
  · rw [store, if_pos hdevice, entries_makeFolder hmade]
  · rw [keeps_iff.mpr ⟨made, place, hmade, hplace, hfolder, hdevice⟩] at hkeeps
    cases hkeeps

end SparseWeights.Files
