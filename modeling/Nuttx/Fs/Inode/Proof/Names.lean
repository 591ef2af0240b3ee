import Nuttx.Fs.Inode.Paths
import Mathlib.Data.List.Lex
import Mathlib.Algebra.Order.Ring.Int

/-!
# Names in paths

A search compares the first name of what is left of its path with the name of a node, and then goes on
behind the slashes that follow.
-/

open List

namespace Nuttx.Fs

variable (cfg : Config)

theorem charVal_injective : Function.Injective (charVal cfg) := by
  intro c d h
  unfold charVal at h
  split_ifs at h
  · have h' : c.toInt8 = d.toInt8 := Int8.toInt_inj.mp h
    have h'' := congrArg Int8.toUInt8 h'
    simpa using h''
  · exact UInt8.toNat_inj.mp (Int.ofNat_inj.mp h)

instance : DecidableRel (nameLt cfg) := fun m n =>
  inferInstanceAs (Decidable (m.map (charVal cfg) < n.map (charVal cfg)))

instance : IsStrictTotalOrder (List UInt8) (nameLt cfg) where
  irrefl m := lt_irrefl (m.map (charVal cfg))
  trans _ _ _ := lt_trans
  trichotomous _ _ hmn hnm :=
    List.map_injective_iff.mpr (charVal_injective cfg) (le_antisymm (not_lt.mp hnm) (not_lt.mp hmn))

theorem nameLt_cons {c d : UInt8} {m n : List UInt8} :
    nameLt cfg (c :: m) (d :: n) ↔ charVal cfg c < charVal cfg d ∨ (c = d ∧ nameLt cfg m n) := by
  rw [nameLt, map_cons, map_cons, cons_lt_cons_iff, (charVal_injective cfg).eq_iff, nameLt]

theorem inodeCompare_spec (fname nname : List UInt8) :
    (inodeCompare cfg fname nname < 0 ↔ nameLt cfg (fname.takeWhile inName) nname) ∧
      (inodeCompare cfg fname nname > 0 ↔ nameLt cfg nname (fname.takeWhile inName)) := by
  induction nname generalizing fname with
  | nil =>
    cases fname with
    | nil => simp [inodeCompare, nameLt]
    | cons c fname =>
      by_cases hc : c = slash
      · simp [inodeCompare, inName, hc, nameLt]
      · have hin : inName c = true := by simp [inName, hc]
        rw [inodeCompare, if_neg hc, takeWhile_cons_of_pos hin]
        simp [nameLt]
  | cons n nname ih =>
    cases fname with
    | nil => simp [inodeCompare, nameLt]
    | cons c fname =>
      by_cases hc : c = slash
      · simp [inodeCompare, inName, hc, nameLt]
      have hin : inName c = true := by simp [inName, hc]
      rw [inodeCompare, if_neg hc, takeWhile_cons_of_pos hin, nameLt_cons, nameLt_cons]
      rcases lt_trichotomy (charVal cfg c) (charVal cfg n) with hlt | heq | hgt
      · simp [hlt, hlt.not_gt, (ne_of_apply_ne _ hlt.ne).symm]
      · obtain rfl := charVal_injective cfg heq
        simpa using ih fname
      · simp [hgt, hgt.not_gt, ne_of_apply_ne _ hgt.ne']

theorem components_slash (path : List UInt8) : components (slash :: path) = components path := by
  simp [components, splitOnP_cons_eq_if_modifyHead]

theorem components_dropWhile_slash (path : List UInt8) :
    components (path.dropWhile (· == slash)) = components path := by
  induction path with
  | nil => rfl
  | cons c path ih =>
    by_cases hc : c = slash
    · subst hc
      rw [components_slash, ← ih, dropWhile_cons_of_pos (p := (· == slash)) (beq_self_eq_true slash)]
    · rw [dropWhile_cons_of_neg (by simpa using hc)]

theorem splitOnP_slash (path : List UInt8) :
    ∃ rest, path.splitOnP (· == slash) = path.takeWhile inName :: rest ∧
      rest.filter (· ≠ []) = components (path.dropWhile inName) := by
  induction path with
  | nil => exact ⟨[], by simp, by simp [components]⟩
  | cons c path ih =>
    by_cases hc : c = slash
    · subst hc
      have hin : ¬inName slash = true := by simp [inName]
      refine ⟨path.splitOnP (· == slash), ?_, ?_⟩
      · simp [splitOnP_cons_eq_if_modifyHead, takeWhile_cons_of_neg hin]
      · rw [dropWhile_cons_of_neg hin, components_slash, components]
    · have hin : inName c = true := by simp [inName, hc]
      obtain ⟨rest, hsplit, hrest⟩ := ih
      refine ⟨rest, ?_, ?_⟩
      · simp [splitOnP_cons_eq_if_modifyHead, hc, hsplit, takeWhile_cons_of_pos hin]
      · rw [dropWhile_cons_of_pos hin, hrest]

theorem components_nextname (name : List UInt8) :
    components name =
      [name.takeWhile inName].filter (· ≠ []) ++ components (inodeNextname name) := by
  obtain ⟨rest, hsplit, hrest⟩ := splitOnP_slash name
  rw [components, hsplit, inodeNextname, components_dropWhile_slash, ← hrest, ← singleton_append,
    filter_append]

def AtName (name : List UInt8) : Prop := name.head? ≠ some slash

theorem atName_nextname (name : List UInt8) : AtName (inodeNextname name) := by
  intro h
  have hspec := List.head?_dropWhile_not (· == slash) (name.dropWhile inName)
  unfold inodeNextname at h
  rw [h] at hspec
  simp at hspec

theorem components_absolute {path : List UInt8} (h : path.head? = some slash) :
    components (inodeNextname path) = components path := by
  obtain ⟨rest, rfl⟩ : ∃ rest, path = slash :: rest := by
    cases path with
    | nil => simp at h
    | cons c rest => exact ⟨rest, by rw [Option.some.inj h]⟩
  have hin : ¬inName slash = true := by simp [inName]
  rw [components_nextname (slash :: rest), takeWhile_cons_of_neg hin]
  rfl

variable {name : List UInt8}

theorem components_cons (hname : AtName name) (hne : name ≠ []) :
    components name = name.takeWhile inName :: components (inodeNextname name) := by
  obtain ⟨c, rest, rfl⟩ := exists_cons_of_ne_nil hne
  have hin : inName c = true := by
    have hc : c ≠ slash := fun hc => hname (by rw [hc, List.head?_cons])
    simp [inName, hc]
  rw [components_nextname (c :: rest), takeWhile_cons_of_pos hin]
  rfl

theorem components_eq_nil (hname : AtName name) : components name = [] ↔ name = [] := by
  constructor
  · intro h
    by_contra hne
    rw [components_cons hname hne] at h
    exact absurd h (cons_ne_nil _ _)
  · rintro rfl
    rfl

end Nuttx.Fs
