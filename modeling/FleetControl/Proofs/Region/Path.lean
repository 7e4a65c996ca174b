import FleetControl.Region.Path
import Mathlib.Data.List.Infix

/-!
# The prefix order of region paths

A path encloses those it is a prefix of (`Path.contains_iff`). The paths that enclose a given path
form a chain (`Path.contains_or_contains`), and they are the root and the prefixes of the path
(`Path.mem_prefixes`); `Path.enclosing` lists those other than the path itself, the longest first.
In the order of paths a path comes before those in it (`Path.compare_lt_of_contains`), and two paths
that part at a name come in the order of the names (`Path.compare_lt_of_parted`).

A path is read back from its text (`Path.parse_toString`), so a path can be handed on as text; and a
text that is a path is the text of that path (`Path.toString_of_parse`), so different texts are
different paths.
-/

namespace FleetControl.Region

theorem isSegment_iff {s : String} : isSegment s = true ↔ s.toList ≠ [] ∧ '.' ∉ s.toList := by
  simp [isSegment]

namespace Path

theorem isSegment_of_mem {p : Path} {s : String} (h : s ∈ p.segments) : isSegment s = true :=
  List.all_eq_true.1 p.proper s h

theorem ofSegments?_eq_some {segments : List String} {p : Path} :
    ofSegments? segments = some p ↔ p.segments = segments := by
  unfold ofSegments?
  constructor
  · intro h
    split at h
    · cases h
      rfl
    · cases h
  · rintro rfl
    exact dif_pos p.proper

@[simp] theorem segments_root : root.segments = [] := rfl

@[simp] theorem segments_take (p : Path) (n : Nat) : (p.take n).segments = p.segments.take n := rfl

theorem segments_eq_nil {p : Path} : p.segments = [] ↔ p = root :=
  ⟨fun h => ext_segments h, fun h => h ▸ rfl⟩

/-- A path is the root or one name longer than another. -/
@[elab_as_elim]
theorem induction_concat {P : Path → Prop} (root : P root)
    (concat : ∀ (p q : Path) (name : String), q.segments = p.segments ++ [name] → P p → P q)
    (p : Path) : P p := by
  suffices h : ∀ (segments : List String) (p : Path), p.segments = segments → P p from h _ p rfl
  intro segments
  induction segments using List.reverseRecOn with
  | nil => exact fun p hp => segments_eq_nil.1 hp ▸ root
  | append_singleton init name ih =>
    intro p hp
    have hinit : init.all isSegment = true := by
      have := p.proper
      rw [hp, List.all_append, Bool.and_eq_true] at this
      exact this.1
    exact concat ⟨init, hinit⟩ p name hp (ih _ rfl)

/-! ### Text -/

/-- A path that is not the root is written as a text that begins and ends with a character of a
segment. -/
theorem intercalate_ne_nil {segments : List String} (hne : segments ≠ [])
    (h : ∀ s ∈ segments, isSegment s = true) :
    ['.'].intercalate (segments.map String.toList) ≠ [] ∧
      (['.'].intercalate (segments.map String.toList)).head? ≠ some '.' ∧
      (['.'].intercalate (segments.map String.toList)).getLast? ≠ some '.' := by
  induction segments with
  | nil => exact absurd rfl hne
  | cons s rest ih =>
    obtain ⟨hs, hdot⟩ := isSegment_iff.1 (h s List.mem_cons_self)
    have hhead : s.toList.head? ≠ some '.' := fun hh => hdot (List.mem_of_mem_head? hh)
    have hlast : s.toList.getLast? ≠ some '.' := fun hh => hdot (List.mem_of_getLast? hh)
    cases rest with
    | nil => simpa [List.intercalate] using ⟨by simpa using hs, hhead, hlast⟩
    | cons s' rest =>
      obtain ⟨hne', -, hlast'⟩ := ih (by simp) fun x hx => h x (List.mem_cons_of_mem _ hx)
      have hcons : ['.'].intercalate ((s :: s' :: rest).map String.toList) =
          s.toList ++ '.' :: ['.'].intercalate ((s' :: rest).map String.toList) := by
        simp [List.intercalate]
      rw [hcons]
      refine ⟨by simp, ?_, ?_⟩
      · rwa [List.head?_append_of_ne_nil _ hs]
      · rwa [List.getLast?_append_of_ne_nil _ (List.cons_ne_nil _ _),
          List.getLast?_cons_of_ne_nil hne']

/-- A path is read back from its text. -/
theorem parse_toString (p : Path) : parse p.toString = .ok p := by
  by_cases hroot : p = root
  · rw [hroot]
    rfl
  have hne : p.segments ≠ [] := fun h => hroot (segments_eq_nil.1 h)
  obtain ⟨hnil, hhead, hlast⟩ := intercalate_ne_nil hne fun s hs => isSegment_of_mem hs
  have hsplit : (p.toString.toList.splitOn '.').map String.ofList = p.segments := by
    rw [toString, String.toList_ofList, List.splitOn_intercalate]
    · simp
    · intro l hl
      obtain ⟨s, hs, rfl⟩ := List.mem_map.1 hl
      exact (isSegment_iff.1 (isSegment_of_mem hs)).2
    · simpa using hne
  have htext : p.toString.toList = ['.'].intercalate (p.segments.map String.toList) :=
    String.toList_ofList
  rw [← htext] at hnil hhead hlast
  simp only [parse, hnil, hhead, hlast, if_false, hsplit, ofSegments?_eq_some.2 rfl]

/-- A text that is read as a path is its text. -/
theorem toString_of_parse {text : String} {p : Path} (h : parse text = .ok p) :
    p.toString = text := by
  unfold parse at h
  dsimp only at h
  split_ifs at h with hnil
  · cases h
    exact (String.toList_eq_nil_iff.1 hnil).symm
  · split at h
    · next hq =>
      cases h
      have hlists : p.segments.map String.toList = text.toList.splitOn '.' := by
        simp [ofSegments?_eq_some.1 hq, Function.comp_def]
      rw [toString, hlists, List.intercalate_splitOn, String.ofList_toList]
    · cases h

/-- A text that is no path is reported with what is wrong with it. -/
theorem parse_error {text : String} {e : Error} (h : parse text = .error e) :
    ∃ fault, e = .invalidPath text fault := by
  unfold parse at h
  dsimp only at h
  split_ifs at h
  · exact ⟨_, (Except.error.inj h).symm⟩
  · exact ⟨_, (Except.error.inj h).symm⟩
  · split at h
    · cases h
    · exact ⟨_, (Except.error.inj h).symm⟩

/-! ### The prefix order -/

theorem contains_iff {p q : Path} : p.contains q = true ↔ p.segments <+: q.segments :=
  List.isPrefixOf_iff_prefix

@[simp] theorem contains_refl (p : Path) : p.contains p = true := contains_iff.2 (List.prefix_refl _)

@[simp] theorem root_contains (p : Path) : root.contains p = true := contains_iff.2 List.nil_prefix

theorem contains_trans {p q r : Path} (hpq : p.contains q = true) (hqr : q.contains r = true) :
    p.contains r = true :=
  contains_iff.2 ((contains_iff.1 hpq).trans (contains_iff.1 hqr))

theorem contains_antisymm {p q : Path} (hpq : p.contains q = true) (hqp : q.contains p = true) :
    p = q :=
  ext_segments ((contains_iff.1 hpq).eq_of_length_le (contains_iff.1 hqp).length_le)

/-- The paths around a path form a chain. -/
theorem contains_or_contains {p q r : Path} (hp : p.contains r = true) (hq : q.contains r = true) :
    p.contains q = true ∨ q.contains p = true :=
  (List.prefix_or_prefix_of_prefix (contains_iff.1 hp) (contains_iff.1 hq)).imp
    contains_iff.2 contains_iff.2

theorem take_contains (p : Path) (n : Nat) : (p.take n).contains p = true :=
  contains_iff.2 (List.take_prefix ..)

theorem contains_iff_eq_take {p q : Path} : q.contains p = true ↔ q = p.take q.depth := by
  rw [contains_iff, List.prefix_iff_eq_take]
  exact ⟨fun h => ext_segments h, congrArg segments⟩

theorem depth_le_of_contains {p q : Path} (h : q.contains p = true) : q.depth ≤ p.depth :=
  (contains_iff.1 h).length_le

/-- The paths around a path are the root and its prefixes. -/
theorem mem_prefixes {p q : Path} : q ∈ p.prefixes ↔ q.contains p = true ∧ q ≠ root := by
  simp only [prefixes, List.mem_map, List.mem_range]
  constructor
  · rintro ⟨n, hn, rfl⟩
    refine ⟨take_contains p _, fun h => ?_⟩
    have hlen : (p.segments.take (n + 1)).length = 0 := by rw [← segments_take, h]; rfl
    rw [List.length_take] at hlen
    unfold depth at hn
    omega
  · rintro ⟨hq, hne⟩
    have hpos : 0 < q.depth :=
      List.length_pos_iff.2 fun h => hne (segments_eq_nil.1 h)
    have hle := depth_le_of_contains hq
    refine ⟨q.depth - 1, by omega, ?_⟩
    rw [Nat.sub_add_cancel hpos]
    exact (contains_iff_eq_take.1 hq).symm

/-- The paths around a path, without itself and with the root, the longest first. -/
def enclosing (p : Path) : List Path := ((List.range p.depth).map p.take).reverse

theorem mem_enclosing {p q : Path} : q ∈ p.enclosing ↔ q.contains p = true ∧ q ≠ p := by
  simp only [enclosing, List.mem_reverse, List.mem_map, List.mem_range]
  constructor
  · rintro ⟨n, hn, rfl⟩
    refine ⟨take_contains p n, fun h => ?_⟩
    have hlen : (p.take n).depth = p.depth := by rw [h]
    rw [depth, segments_take, List.length_take] at hlen
    unfold depth at hn hlen
    omega
  · rintro ⟨hq, hne⟩
    have htake := contains_iff_eq_take.1 hq
    refine ⟨q.depth, (depth_le_of_contains hq).lt_of_ne fun h => hne ?_, htake.symm⟩
    rw [htake, h]
    exact ext_segments List.take_length

theorem enclosing_concat {p q : Path} {name : String} (hq : q.segments = p.segments ++ [name]) :
    q.enclosing = p :: p.enclosing := by
  have hdepth : q.depth = p.depth + 1 := by simp [depth, hq]
  have htake : ∀ n ≤ p.depth, q.take n = p.take n := fun n hn =>
    ext_segments (by rw [segments_take, segments_take, hq, List.take_append_of_le_length hn])
  have hshorter : (List.range p.depth).map q.take = (List.range p.depth).map p.take :=
    List.map_congr_left fun n hn => htake n (List.mem_range.1 hn).le
  rw [enclosing, hdepth, List.range_succ, List.map_append, List.reverse_append, hshorter,
    List.map_singleton, htake _ le_rfl, List.reverse_singleton]
  exact congrArg (· :: p.enclosing) (ext_segments List.take_length)

/-- The deeper of two paths around a path comes first. -/
theorem pairwise_depth_enclosing (p : Path) :
    p.enclosing.Pairwise fun q r => r.depth < q.depth := by
  rw [enclosing, List.pairwise_reverse, List.pairwise_map]
  refine List.pairwise_lt_range.imp_of_mem fun {m n} _ hn hlt => ?_
  have hn := List.mem_range.1 hn
  rw [depth, depth, segments_take, segments_take, List.length_take, List.length_take]
  unfold depth at hn
  omega

/-! ### The order of paths -/

theorem compare_append (l xs ys : List String) :
    compare (l ++ xs) (l ++ ys) = compare xs ys := by
  induction l with
  | nil => rfl
  | cons a l ih => simpa [List.compare_cons_cons] using ih

/-- A path comes before every path in it. -/
theorem compare_lt_of_contains {p q : Path} (h : p.contains q = true) (hne : p ≠ q) :
    compare p q = .lt := by
  obtain ⟨rest, hrest⟩ := contains_iff.1 h
  cases rest with
  | nil => exact absurd (ext_segments (by rw [← hrest, List.append_nil])) hne
  | cons a rest =>
    have happend := compare_append p.segments [] (a :: rest)
    rw [List.append_nil, hrest] at happend
    rw [compare_def, happend]
    rfl

/-- Two paths that part at a name come in the order of the names. -/
theorem compare_lt_of_parted {p q : Path} {l : List String} {a b : String}
    (hp : l ++ [a] <+: p.segments) (hq : l ++ [b] <+: q.segments) (hab : compare a b = .lt) :
    compare p q = .lt := by
  obtain ⟨xs, hxs⟩ := hp
  obtain ⟨ys, hys⟩ := hq
  rw [compare_def, ← hxs, ← hys, List.append_assoc, List.append_assoc, compare_append]
  simp [List.compare_cons_cons, hab]

end Path

end FleetControl.Region
