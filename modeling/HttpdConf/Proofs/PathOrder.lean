import HttpdConf.Path
import Mathlib.Data.List.Basic

/-!
# Ascending lists of paths

Paths are ordered totally, up to spellings of the same path. A set of paths that is made by
insertion is in ascending order, so no path is in it twice, and leaving out paths before the
insertions is leaving them out afterwards.

## Main definitions

* `Path.Ascending`: every path comes before those after it
* `Path.setOf`: the set of some paths

## Main results

* `Path.ascending_setOf`: sets are in ascending order
* `Path.setOf_filter`: leaving out paths and making a set can be exchanged
-/

namespace HttpdConf

namespace Component

/-- The text of a name; the other components have none. -/
def text : Component → String
  | name s => s
  | _ => ""

theorem compare_eq (a b : Component) :
    a.compare b = compareLex (compareOn rank) (compareOn text) a b := by
  cases a <;> cases b <;> simp [compare, compareLex, compareOn, rank, text] <;> rfl

instance : Std.TransCmp compare := by
  rw [show compare = compareLex (compareOn rank) (compareOn text) from
    funext fun a => funext fun b => compare_eq a b]
  infer_instance

end Component

namespace Path

theorem compareComponents_eq (as bs : List Component) :
    compareComponents as bs = List.compareLex Component.compare as bs := by
  induction as generalizing bs with
  | nil => cases bs <;> rfl
  | cons a as ih =>
    cases bs with
    | nil => rfl
    | cons b bs => rw [compareComponents, List.compareLex_cons_cons, ih]

instance : Std.TransCmp Path.compare where
  eq_swap {p q} := by
    rw [Path.compare, Path.compare, compareComponents_eq, compareComponents_eq]
    exact Std.OrientedCmp.eq_swap
  isLE_trans {p q r} := by
    rw [Path.compare, Path.compare, Path.compare, compareComponents_eq, compareComponents_eq,
      compareComponents_eq]
    exact Std.TransCmp.isLE_trans

variable {p q x : Path} {ps qs : List Path}

/-- Every path comes before those after it. -/
def Ascending (ps : List Path) : Prop := ps.Pairwise fun p q => p.compare q = .lt

/-- The set of some paths, in ascending order. -/
def setOf (ps : List Path) : List Path := ps.foldl (fun qs p => p.insert qs) []

theorem mem_insert (h : x ∈ p.insert qs) : x = p ∨ x ∈ qs := by
  induction qs with
  | nil => exact .inl (List.mem_singleton.1 h)
  | cons q qs ih =>
    rw [insert] at h
    split at h
    · exact List.mem_cons.1 h
    · exact .inr h
    · rcases List.mem_cons.1 h with rfl | h
      · exact .inr (List.mem_cons_self ..)
      · exact (ih h).imp_right (List.mem_cons_of_mem _)

/-- An ascending list stays ascending when a path is inserted. -/
theorem Ascending.insert (h : Ascending qs) (p : Path) : Ascending (p.insert qs) := by
  induction qs with
  | nil => exact List.pairwise_singleton ..
  | cons q qs ih =>
    obtain ⟨hq, hqs⟩ := List.pairwise_cons.1 h
    rw [Path.insert]
    split
    · rename_i hlt
      refine List.pairwise_cons.2 ⟨fun x hx => ?_, h⟩
      rcases List.mem_cons.1 hx with rfl | hx
      · exact hlt
      · exact Std.TransCmp.lt_trans hlt (hq x hx)
    · exact h
    · rename_i hgt
      refine List.pairwise_cons.2 ⟨fun x hx => ?_, ih hqs⟩
      rcases mem_insert hx with rfl | hx
      · exact Std.OrientedCmp.gt_iff_lt.1 hgt
      · exact hq x hx

/-- A path that comes before all others is inserted in front. -/
theorem insert_of_lt (h : ∀ q ∈ qs, p.compare q = .lt) : p.insert qs = p :: qs := by
  cases qs with
  | nil => rfl
  | cons q qs => rw [insert, h q (List.mem_cons_self ..)]

/-- Paths that are left out may be left out before another path is inserted. -/
theorem filter_insert {keep : Path → Bool} (hkeep : ∀ p q, p.compare q = .eq → keep p = keep q)
    (h : Ascending qs) (p : Path) :
    (p.insert qs).filter keep = if keep p then p.insert (qs.filter keep) else qs.filter keep := by
  induction qs with
  | nil => cases hp : keep p <;> simp [insert, hp]
  | cons q qs ih =>
    obtain ⟨hq, hqs⟩ := List.pairwise_cons.1 h
    rw [insert]
    split
    · rename_i hlt
      have hall : ∀ x ∈ (q :: qs).filter keep, p.compare x = .lt := by
        intro x hx
        rcases List.mem_cons.1 (List.mem_of_mem_filter hx) with rfl | hx
        · exact hlt
        · exact Std.TransCmp.lt_trans hlt (hq x hx)
      rw [List.filter_cons, insert_of_lt hall]
    · -- another spelling of the path is there, and is left out or not like the path itself
      rename_i heq
      cases hp : keep p with
      | false => simp
      | true =>
        have hq' : keep q = true := (hkeep p q heq).symm.trans hp
        rw [List.filter_cons, if_pos hq', if_pos rfl, insert, heq]
    · rename_i hgt
      rw [List.filter_cons, List.filter_cons, ih hqs]
      by_cases hq' : keep q = true
      · rw [if_pos hq', if_pos hq']
        by_cases hp : keep p = true
        · rw [if_pos hp, if_pos hp, insert, hgt]
        · rw [if_neg hp, if_neg hp]
      · rw [if_neg hq', if_neg hq']

theorem foldl_insert_filter {keep : Path → Bool}
    (hkeep : ∀ p q, p.compare q = .eq → keep p = keep q) (h : Ascending qs) (ps : List Path) :
    (ps.filter keep).foldl (fun qs p => p.insert qs) (qs.filter keep) =
      (ps.foldl (fun qs p => p.insert qs) qs).filter keep := by
  induction ps generalizing qs with
  | nil => rfl
  | cons p ps ih =>
    rw [List.foldl_cons, ← ih (h.insert p), filter_insert hkeep h, List.filter_cons]
    by_cases hp : keep p = true
    · rw [if_pos hp, if_pos hp, List.foldl_cons]
    · rw [if_neg hp, if_neg hp]

theorem Ascending.foldl_insert (h : Ascending qs) (ps : List Path) :
    Ascending (ps.foldl (fun qs p => p.insert qs) qs) := by
  induction ps generalizing qs with
  | nil => exact h
  | cons p ps ih => exact ih (h.insert p)

/-- Sets are in ascending order. -/
theorem ascending_setOf (ps : List Path) : Ascending (setOf ps) :=
  Ascending.foldl_insert List.Pairwise.nil ps

/-- Leaving out paths and making a set can be exchanged. -/
theorem setOf_filter {keep : Path → Bool} (hkeep : ∀ p q, p.compare q = .eq → keep p = keep q)
    (ps : List Path) : setOf (ps.filter keep) = (setOf ps).filter keep :=
  foldl_insert_filter hkeep List.Pairwise.nil ps

end Path

end HttpdConf
