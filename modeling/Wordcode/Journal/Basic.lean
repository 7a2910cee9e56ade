import Wordcode.Journal.Remark

/-! The journal keeps the remarks that reach its threshold, in the order in which they
were made. -/

namespace Wordcode

structure Journal where
  threshold : Level
  remarks : Array Remark := #[]
  deriving DecidableEq

namespace Journal

def note : Journal → Remark → Journal
  | ⟨threshold, remarks⟩, r =>
    if threshold ≤ r.level then ⟨threshold, remarks.push r⟩ else ⟨threshold, remarks⟩

def noteAll (j : Journal) (rs : List Remark) : Journal :=
  rs.foldl note j

/-- The journal with its remarks taken out. -/
def cleared (j : Journal) : Journal :=
  { j with remarks := #[] }

def lines (j : Journal) (stamp : Option String) : List String :=
  (j.remarks.map (·.line stamp)).toList

@[simp] theorem threshold_note (j : Journal) (r : Remark) : (j.note r).threshold = j.threshold := by
  cases j
  simp only [note]
  split <;> rfl

theorem remarks_note (j : Journal) (r : Remark) :
    (j.note r).remarks.toList = j.remarks.toList ++ [r].filter (j.threshold ≤ ·.level) := by
  cases j
  simp only [note]
  split <;> simp [*]

@[simp] theorem threshold_noteAll (j : Journal) (rs : List Remark) :
    (j.noteAll rs).threshold = j.threshold := by
  induction rs generalizing j with
  | nil => rfl
  | cons r rs ih => exact (ih (j.note r)).trans (threshold_note j r)

/-- Exactly the remarks at or above the threshold are added. -/
theorem remarks_noteAll (j : Journal) (rs : List Remark) :
    (j.noteAll rs).remarks.toList = j.remarks.toList ++ rs.filter (j.threshold ≤ ·.level) := by
  induction rs generalizing j with
  | nil => simp [noteAll]
  | cons r rs ih =>
    have := ih (j.note r)
    rw [remarks_note, threshold_note, List.append_assoc, ← List.filter_append] at this
    exact this

end Journal

end Wordcode
