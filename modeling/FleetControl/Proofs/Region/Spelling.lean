import FleetControl.Proofs.Region.Path
import Mathlib.Order.Defs.Unbundled

/-!
# The texts of region paths

Reading a text and writing a path are inverse to each other (`Path.parse_eq_ok_iff`). So a text is a
path when its parts between dots are names, and a path is read back from its text whichever way it
was made: read, as the child or the parent of another, or as a prefix.

The name under a path is written after the text of the path and a dot (`Path.toString_concat`); under
the root it is written alone. So going down by a name is reading the longer text, and all that has to
be checked is that the name is a single one.

Enclosing is a partial order. It is told by the prefixes of the enclosed path, and the order of paths
extends it (`Path.Spelling`).
-/

namespace FleetControl.Region.Path

variable {p q : Path} {text name : String}

/-! ### Reading and writing -/

/-- A text is read as the path that is written so. -/
theorem parse_eq_ok_iff : parse text = .ok p ↔ p.toString = text :=
  ⟨toString_of_parse, fun h => h ▸ parse_toString p⟩

theorem not_mem_of_mem_splitOn {chars : List Char} :
    ∀ part ∈ chars.splitOn '.', '.' ∉ part := by
  induction chars with
  | nil => simp
  | cons c cs ih =>
    rw [List.splitOn_cons_eq_if_modifyHead]
    by_cases hc : c = '.'
    · simpa [hc] using ih
    · obtain ⟨first, rest, hsplit⟩ := List.exists_cons_of_ne_nil (List.splitOn_ne_nil '.' cs)
      rw [hsplit, List.forall_mem_cons] at ih
      rw [if_neg (by simpa using hc), hsplit, List.modifyHead_cons, List.forall_mem_cons]
      exact ⟨List.not_mem_cons_of_ne_of_not_mem (Ne.symm hc) ih.1, ih.2⟩

/-- The parts of the text of a path are its names. -/
theorem splitOn_toString (hne : p ≠ root) :
    p.toString.toList.splitOn '.' = p.segments.map String.toList := by
  rw [toString, String.toList_ofList, List.splitOn_intercalate]
  · intro part hpart
    obtain ⟨s, hs, rfl⟩ := List.mem_map.1 hpart
    exact (isSegment_iff.1 (isSegment_of_mem hs)).2
  · simpa using mt segments_eq_nil.1 hne

/-- A text is a path when it is empty or its parts between dots are names. -/
theorem exists_parse_iff :
    (∃ p, parse text = .ok p) ↔ text = "" ∨ ∀ part ∈ text.toList.splitOn '.', part ≠ [] := by
  simp only [parse_eq_ok_iff]
  constructor
  · rintro ⟨p, rfl⟩
    by_cases hroot : p = root
    · exact .inl (hroot ▸ rfl)
    refine .inr fun part hpart => ?_
    rw [splitOn_toString hroot] at hpart
    obtain ⟨s, hs, rfl⟩ := List.mem_map.1 hpart
    exact (isSegment_iff.1 (isSegment_of_mem hs)).1
  · rintro (rfl | hparts)
    · exact ⟨root, rfl⟩
    refine ⟨⟨(text.toList.splitOn '.').map String.ofList, List.all_eq_true.2 fun s hs => ?_⟩, ?_⟩
    · obtain ⟨part, hpart, rfl⟩ := List.mem_map.1 hs
      exact isSegment_iff.2 (by simpa using ⟨hparts part hpart, not_mem_of_mem_splitOn part hpart⟩)
    · simp [toString, Function.comp_def, List.intercalate_splitOn]

/-! ### Down and up by one name -/

theorem intercalate_concat {parts : List (List Char)} (hne : parts ≠ []) (last : List Char) :
    ['.'].intercalate (parts ++ [last]) = ['.'].intercalate parts ++ '.' :: last := by
  induction parts with
  | nil => exact absurd rfl hne
  | cons part parts ih =>
    cases parts with
    | nil => simp
    | cons next parts =>
      rw [List.cons_append, List.cons_append, List.intercalate_cons_cons,
        List.intercalate_cons_cons, ← List.cons_append, ih (by simp)]
      simp only [List.append_assoc]

/-- A name under a path is written after its text and a dot, under the root alone. -/
theorem toString_concat (h : q.segments = p.segments ++ [name]) :
    q.toString = if p.isRoot then name else p.toString ++ "." ++ name := by
  by_cases hroot : p.segments = []
  · simp [toString, h, isRoot, hroot]
  · have hne : p.segments.map String.toList ≠ [] := by simpa using hroot
    rw [toString, h, List.map_append, List.map_singleton, intercalate_concat hne,
      if_neg (by simpa [isRoot] using hroot)]
    apply String.toList_injective
    simp [toString]

theorem child_eq_ok_iff : p.child name = .ok q ↔ q.segments = p.segments ++ [name] := by
  unfold child
  constructor
  · intro h
    split at h
    · cases h
      rfl
    · cases h
  · intro h
    have hname : isSegment name = true := isSegment_of_mem (p := q) (by simp [h])
    rw [dif_pos hname]
    exact congrArg _ (ext_segments h.symm)

theorem exists_child_iff : (∃ q, p.child name = .ok q) ↔ name ≠ "" ∧ '.' ∉ name.toList := by
  have hnil : name ≠ "" ↔ name.toList ≠ [] := String.toList_eq_nil_iff.not.symm
  rw [hnil, ← isSegment_iff]
  constructor
  · rintro ⟨q, hq⟩
    exact isSegment_of_mem (p := q) (by simp [child_eq_ok_iff.1 hq])
  · intro hname
    exact ⟨⟨p.segments ++ [name], by simp [p.proper, hname]⟩, child_eq_ok_iff.2 rfl⟩

theorem parent?_eq_some_of_concat (h : q.segments = p.segments ++ [name]) : q.parent? = some p := by
  rw [parent?, if_neg (by simp [isRoot, h])]
  exact congrArg some (ext_segments (by simp [depth, h]))

/-! ### What paths and their texts promise -/

/-- The paths around a path are the root and its prefixes. -/
theorem contains_iff_mem_prefixes : p.contains q = true ↔ p = root ∨ p ∈ q.prefixes := by
  rw [mem_prefixes]
  constructor
  · intro h
    exact (eq_or_ne p root).imp_right fun hne => ⟨h, hne⟩
  · rintro (rfl | ⟨h, -⟩)
    · exact root_contains q
    · exact h

theorem isPartialOrder_contains : IsPartialOrder Path fun p q => p.contains q = true where
  refl := contains_refl
  trans _ _ _ := contains_trans
  antisymm _ _ := contains_antisymm

/-- A path is not after those it encloses. -/
theorem isLE_compare_of_contains (h : p.contains q = true) : (compare p q).isLE = true := by
  by_cases heq : p = q
  · have hself : compare q q = .eq := Std.ReflCmp.compare_self
    rw [heq, hself]
    rfl
  · rw [compare_lt_of_contains h heq]
    rfl

/-- What paths and their texts promise. -/
structure Spelling : Prop where
  /-- A text is a path when it is empty or its parts between dots are names. -/
  readable (text : String) :
    (∃ p, parse text = .ok p) ↔ text = "" ∨ ∀ part ∈ text.toList.splitOn '.', part ≠ []
  /-- A path that was read is written as it was. -/
  written (text : String) (p : Path) : parse text = .ok p → p.toString = text
  /-- A path is read back from its text, whichever way it was made. -/
  readBack (p : Path) : parse p.toString = .ok p
  /-- There is a child for each name that is not empty and has no dot. -/
  child (p : Path) (name : String) :
    (∃ q, p.child name = .ok q) ↔ name ≠ "" ∧ '.' ∉ name.toList
  /-- The child is what the text of the path, a dot and the name are read as; under the root the
  name alone. -/
  childText (p q : Path) (name : String) : p.child name = .ok q →
    parse (if p.isRoot then name else p.toString ++ "." ++ name) = .ok q
  /-- The path is the parent of its children. -/
  childParent (p q : Path) (name : String) : p.child name = .ok q → q.parent? = some p
  /-- Enclosing is a partial order. -/
  order : IsPartialOrder Path fun p q => p.contains q = true
  /-- A path is enclosed by the root and its prefixes. -/
  around (p q : Path) : p.contains q = true ↔ p = root ∨ p ∈ q.prefixes
  /-- No path is after those it encloses. -/
  ascending (p q : Path) : p.contains q = true → (compare p q).isLE = true

theorem spelling : Spelling where
  readable _ := exists_parse_iff
  written _ _ := toString_of_parse
  readBack := parse_toString
  child _ _ := exists_child_iff
  childText _ _ _ h := parse_eq_ok_iff.2 (toString_concat (child_eq_ok_iff.1 h))
  childParent _ _ _ h := parent?_eq_some_of_concat (child_eq_ok_iff.1 h)
  order := isPartialOrder_contains
  around _ _ := contains_iff_mem_prefixes
  ascending _ _ := isLE_compare_of_contains

/-- A compound name is refused, though it would be read as a path. -/
example : (root.child "eu.west").toBool = false ∧ (parse "eu.west").toBool = true := by
  decide +kernel

end FleetControl.Region.Path
