import FleetControl.Proofs.Region.Path
import FleetControl.Proofs.SortedMap
import FleetControl.Region.Tree

/-!
# Regions and their paths

A tree keeps its regions in a list, the parent of each region beside it, and the children of each
region in a map. A tree is *sound* if these agree (`Tree.Sound`); then a path leads to a region
exactly if it is the path of the region (`Sound.resolve_eq_some_iff`), and the subtree of a region
holds the regions whose paths lie in its path (`Sound.mem_subtree_iff`).

Trees only grow (`Tree.Grows`): names, parents and children stay, so paths lead where they led
before (`Grows.resolve`). To create the regions on the way to a path adds those that are missing and
no others (`creates_create`), and nothing if the region is there (`create_of_resolve`).
-/

namespace FleetControl.Region.Tree

variable {t t' t'' : Tree} {p q : Path} {id parent c : RegionId} {name : String} {entry : Entry}

/-! ### Looking up -/

theorem get?_isSome_iff : (t.get? id).isSome ↔ id < t.size := by simp [get?, size]

theorem lt_size_of_get? (h : t.get? id = some entry) : id < t.size :=
  get?_isSome_iff.1 (by simp [h])

theorem exists_get?_of_lt_size (h : id < t.size) : ∃ entry, t.get? id = some entry :=
  Option.isSome_iff_exists.1 (get?_isSome_iff.2 h)

theorem get?_eq_none (h : t.size ≤ id) : t.get? id = none := List.getElem?_eq_none h

theorem lt_size_of_path? (h : t.path? id = some p) : id < t.size := by
  obtain ⟨entry, hget, -⟩ := Option.bind_eq_some_iff.1 h
  exact lt_size_of_get? hget

theorem child?_eq_some :
    t.child? id name = some c ↔ ∃ entry, t.get? id = some entry ∧ entry.children.get? name = some c :=
  Option.bind_eq_some_iff

theorem mem_children : c ∈ t.children id ↔ ∃ name, t.child? id name = some c := by
  unfold children child?
  cases t.get? id with
  | none => simp
  | some entry => exact SortedMap.mem_values

@[simp] theorem resolve_root : t.resolve Path.root = some root := rfl

theorem resolve_concat (h : q.segments = p.segments ++ [name]) :
    t.resolve q = (t.resolve p).bind fun id => t.child? id name := by
  simp only [resolve, h, List.foldlM_append, List.foldlM_cons, List.foldlM_nil, bind_pure]
  rfl

/-- With a path every path around it leads to a region. -/
theorem isSome_resolve_of_contains (hq : (t.resolve q).isSome) (h : p.contains q = true) :
    (t.resolve p).isSome := by
  obtain ⟨rest, hrest⟩ := Path.contains_iff.1 h
  rw [resolve, ← hrest, List.foldlM_append] at hq
  rw [resolve]
  cases hp : p.segments.foldlM t.child? root with
  | none => simp [hp] at hq
  | some id => rfl

/-! ### Sound trees -/

/-- The parents that the regions know and the children that they hold agree, and a region is
younger than its parent. -/
structure Sound (t : Tree) : Prop where
  /-- The root has no parent. -/
  rooted : ∃ entry, t.get? root = some entry ∧ entry.parent = none
  /-- Every other region is held by an older one under its name. -/
  held : ∀ {id entry}, t.get? id = some entry → id ≠ root → ∃ parent < id,
    entry.parent = some parent ∧ isSegment entry.name = true ∧
      t.child? parent entry.name = some id
  /-- A region that is held knows by whom and under which name. -/
  known : ∀ {id name c}, t.child? id name = some c →
    ∃ entry, t.get? c = some entry ∧ entry.parent = some id ∧ entry.name = name

namespace Sound

variable (h : t.Sound)
include h

/-- A child is younger than its parent, and its name is a segment. -/
theorem lt_of_child? (hc : t.child? id name = some c) : id < c ∧ isSegment name = true := by
  obtain ⟨entry, hget, hparent, rfl⟩ := h.known hc
  have hne : c ≠ root := by
    rintro rfl
    obtain ⟨entry', hget', hnone⟩ := h.rooted
    rw [hget, Option.some.injEq] at hget'
    rw [hget', hnone] at hparent
    cases hparent
  obtain ⟨parent, hlt, hparent', hseg, -⟩ := h.held hget hne
  rw [hparent, Option.some.injEq] at hparent'
  exact ⟨hparent' ▸ hlt, hseg⟩

/-! ### Paths -/

/-- Climbing ends at the root, so more steps than the id counts change nothing. -/
theorem climb_eq {fuel fuel' : Nat} (hid : id < fuel) (hid' : id < fuel') :
    t.climb fuel id = t.climb fuel' id := by
  induction id using Nat.strong_induction_on generalizing fuel fuel' with
  | _ id ih =>
    obtain ⟨n, rfl⟩ := Nat.exists_eq_add_of_lt hid
    obtain ⟨n', rfl⟩ := Nat.exists_eq_add_of_lt hid'
    simp only [climb]
    cases hget : t.get? id with
    | none => rfl
    | some entry =>
      by_cases hroot : id = root
      · obtain ⟨entry', hget', hnone⟩ := h.rooted
        rw [← hroot, hget, Option.some.injEq] at hget'
        simp [hget', hnone]
      · obtain ⟨parent, hlt, hparent, -⟩ := h.held hget hroot
        have := ih parent hlt (Nat.lt_add_right n hlt) (Nat.lt_add_right n' hlt)
        simp [hparent, this]

theorem lineage_root : t.lineage root = [root] := by
  obtain ⟨entry, hget, hnone⟩ := h.rooted
  simp [lineage, climb, hget, hnone]

theorem lineage_child (hc : t.child? parent name = some id) :
    t.lineage id = id :: t.lineage parent := by
  obtain ⟨entry, hget, hparent, -⟩ := h.known hc
  have hlt := (h.lt_of_child? hc).1
  simp only [lineage, climb, hget, hparent, Option.elim_some, List.cons.injEq, true_and]
  exact h.climb_eq hlt (Nat.lt_succ_self _)

omit h in
theorem lineage_ne_nil (hid : id < t.size) : t.lineage id ≠ [] := by
  obtain ⟨entry, hget⟩ := exists_get?_of_lt_size hid
  simp [lineage, climb, hget]

theorem path?_root : t.path? root = some Path.root := by
  obtain ⟨entry, hget, -⟩ := h.rooted
  rw [path?, hget, h.lineage_root]
  rfl

/-- The path of a child is one name longer than the path of its parent. -/
theorem path?_child (hc : t.child? parent name = some id) (hp : t.path? parent = some p)
    (hq : q.segments = p.segments ++ [name]) : t.path? id = some q := by
  obtain ⟨entry, hget, -, hname⟩ := h.known hc
  obtain ⟨entry', hget', -⟩ := child?_eq_some.1 hc
  have hline : (t.lineage id).reverse.tail = (t.lineage parent).reverse.tail ++ [id] := by
    rw [h.lineage_child hc, List.reverse_cons, List.tail_append_of_ne_nil]
    simpa using lineage_ne_nil (lt_size_of_get? hget')
  have hnames : ((t.lineage parent).reverse.tail.filterMap t.name?) = p.segments := by
    rw [path?, hget', Option.bind_some, Path.ofSegments?_eq_some] at hp
    exact hp.symm
  rw [path?, hget, Option.bind_some, Path.ofSegments?_eq_some, hline, List.filterMap_append, hnames,
    hq]
  simp [name?, hget, hname]

/-- Every region has a path, which leads back to it. -/
theorem exists_path (hid : id < t.size) : ∃ p, t.path? id = some p ∧ t.resolve p = some id := by
  induction id using Nat.strong_induction_on with
  | _ id ih =>
    by_cases hroot : id = root
    · exact ⟨Path.root, hroot ▸ h.path?_root, hroot ▸ rfl⟩
    · obtain ⟨entry, hget⟩ := exists_get?_of_lt_size hid
      obtain ⟨parent, hlt, -, hseg, hc⟩ := h.held hget hroot
      obtain ⟨p, hp, hres⟩ := ih parent hlt (hlt.trans hid)
      let q : Path := ⟨p.segments ++ [entry.name], by simp [p.proper, hseg]⟩
      exact ⟨q, h.path?_child hc hp rfl, by rw [resolve_concat (p := p) rfl, hres]; exact hc⟩

/-- **A path leads to a region exactly if it is the path of the region.** -/
theorem resolve_eq_some_iff : t.resolve p = some id ↔ t.path? id = some p := by
  constructor
  · induction p using Path.induction_concat generalizing id with
    | root =>
      rintro hid
      rw [resolve_root, Option.some.injEq] at hid
      exact hid ▸ h.path?_root
    | concat p q name hq ih =>
      rw [resolve_concat hq, Option.bind_eq_some_iff]
      rintro ⟨parent, hparent, hc⟩
      exact h.path?_child hc (ih hparent) hq
  · intro hp
    obtain ⟨q, hq, hres⟩ := h.exists_path (lt_size_of_path? hp)
    rw [hp, Option.some.injEq] at hq
    exact hq ▸ hres

theorem path?_isSome_iff : (t.path? id).isSome ↔ id < t.size := by
  constructor
  · intro hp
    obtain ⟨p, hp⟩ := Option.isSome_iff_exists.1 hp
    exact lt_size_of_path? hp
  · intro hid
    obtain ⟨p, hp, -⟩ := h.exists_path hid
    simp [hp]

theorem lt_size_of_resolve (hp : t.resolve p = some id) : id < t.size :=
  lt_size_of_path? (h.resolve_eq_some_iff.1 hp)

/-- The paths of a region and of the one around it. -/
theorem segments_path? (hc : t.child? parent name = some id) (hp : t.path? parent = some p)
    (hq : t.path? id = some q) : q.segments = p.segments ++ [name] := by
  let q' : Path := ⟨p.segments ++ [name], by simp [p.proper, (h.lt_of_child? hc).2]⟩
  have := h.path?_child (q := q') hc hp rfl
  rw [hq, Option.some.injEq] at this
  exact this ▸ rfl

end Sound

/-! ### Growing trees -/

/-- The regions of `t` are regions of `t'` with the same name and parent, and held as before. -/
structure Grows (t t' : Tree) : Prop where
  entry : ∀ {id entry}, t.get? id = some entry →
    ∃ entry', t'.get? id = some entry' ∧ entry'.name = entry.name ∧ entry'.parent = entry.parent
  child : ∀ {id name c}, t.child? id name = some c → t'.child? id name = some c

namespace Grows

theorem refl (t : Tree) : Grows t t := ⟨fun h => ⟨_, h, rfl, rfl⟩, id⟩

theorem trans (h : Grows t t') (h' : Grows t' t'') : Grows t t'' where
  entry hget := by
    obtain ⟨entry', hget', hname, hparent⟩ := h.entry hget
    obtain ⟨entry'', hget'', hname', hparent'⟩ := h'.entry hget'
    exact ⟨entry'', hget'', hname'.trans hname, hparent'.trans hparent⟩
  child hc := h'.child (h.child hc)

theorem resolve (h : Grows t t') (hp : t.resolve p = some id) : t'.resolve p = some id := by
  induction p using Path.induction_concat generalizing id with
  | root => exact hp
  | concat p q name hq ih =>
    rw [resolve_concat hq, Option.bind_eq_some_iff] at hp ⊢
    obtain ⟨parent, hparent, hc⟩ := hp
    exact ⟨parent, ih hparent, h.child hc⟩

theorem path? (h : Grows t t') (ht : t.Sound) (ht' : t'.Sound) (hp : t.path? id = some p) :
    t'.path? id = some p :=
  ht'.resolve_eq_some_iff.1 (h.resolve (ht.resolve_eq_some_iff.2 hp))

end Grows

/-! ### Settings -/

/-- The trees differ at most in the settings of their regions. -/
def Resets (t t' : Tree) : Prop :=
  ∃ f : RegionId → Settings → Settings, ∀ id,
    t'.get? id = (t.get? id).map fun entry => { entry with settings := f id entry.settings }

theorem Resets.child? (h : Resets t t') : t'.child? id name = t.child? id name := by
  obtain ⟨f, hf⟩ := h
  simp only [Tree.child?, hf]
  cases t.get? id <;> rfl

theorem Resets.grows (h : Resets t t') : Grows t t' where
  entry {id entry} hget := by
    obtain ⟨f, hf⟩ := h
    rw [hf, hget]
    exact ⟨_, rfl, rfl, rfl⟩
  child hc := h.child?.trans hc

theorem Resets.old_entry (h : Resets t t') {entry' : Entry} (hget' : t'.get? id = some entry') :
    ∃ entry, t.get? id = some entry ∧ entry.name = entry'.name ∧ entry.parent = entry'.parent := by
  obtain ⟨f, hf⟩ := h
  rw [hf, Option.map_eq_some_iff] at hget'
  obtain ⟨entry, hget, rfl⟩ := hget'
  exact ⟨entry, hget, rfl, rfl⟩

/-- What makes a tree sound does not depend on the settings. -/
theorem Resets.sound (h : Resets t t') (ht : t.Sound) : t'.Sound where
  rooted := by
    obtain ⟨entry, hget, hnone⟩ := ht.rooted
    obtain ⟨entry', hget', -, hparent⟩ := h.grows.entry hget
    exact ⟨entry', hget', hparent.trans hnone⟩
  held {id entry'} hget' hne := by
    obtain ⟨entry, hget, hname, hparent⟩ := h.old_entry hget'
    simpa only [h.child?, hname, hparent] using ht.held hget hne
  known {id name c} hc := by
    rw [h.child?] at hc
    obtain ⟨entry, hget, hparent, hname⟩ := ht.known hc
    obtain ⟨entry', hget', hname', hparent'⟩ := h.grows.entry hget
    exact ⟨entry', hget', hparent'.trans hparent, hname'.trans hname⟩

theorem get?_set (entry : Entry) (q : RegionId) :
    (t.set id entry).get? q = if q = id then (t.get? q).map fun _ => entry else t.get? q := by
  simp only [set, get?, List.getElem?_set]
  by_cases hq : id = q
  · subst hq
    by_cases hlt : id < t.entries.length <;> simp [hlt]
  · simp [hq, Ne.symm hq]

theorem get?_modify (f : Entry → Entry) (q : RegionId) :
    (t.modify id f).get? q = if q = id then (t.get? q).map f else t.get? q := by
  unfold modify
  by_cases hq : q = id
  · subst hq
    cases hget : t.get? q <;> simp [get?_set, hget]
  · cases hget : t.get? id <;> simp [get?_set, hq]

theorem resets_of_updateSettings {f : Settings → Settings} (h : t.updateSettings id f = .ok t') :
    Resets t t' := by
  unfold updateSettings at h
  cases hget : t.get? id with
  | none => simp [hget] at h
  | some entry =>
    simp only [hget, Except.ok.injEq] at h
    subst h
    refine ⟨fun q => if q = id then f else fun s => s, fun q => ?_⟩
    rw [get?_set]
    by_cases hq : q = id
    · simp [hq, hget]
    · simp [hq]

/-! ### Creating regions -/

theorem size_addChild : (t.addChild parent name).size = t.size + 1 := by
  unfold addChild modify
  cases t.get? parent <;> simp [size, set]

theorem lt_size_addChild : id < (t.addChild parent name).size ↔ id ≤ t.size := by
  rw [size_addChild, Nat.lt_succ_iff]

theorem get?_addChild (q : RegionId) :
    (t.addChild parent name).get? q =
      if q = t.size then some { name, parent := some parent }
      else if q = parent then (t.get? q).map fun entry =>
        { entry with children := entry.children.insert name t.size }
      else t.get? q := by
  have hsize : (t.modify parent fun entry =>
      { entry with children := entry.children.insert name t.size }).size = t.size := by
    unfold modify
    cases t.get? parent <;> simp [size, set]
  have hget : (t.modify parent fun entry =>
      { entry with children := entry.children.insert name t.size }).get? q =
        if q = parent then (t.get? q).map fun entry =>
          { entry with children := entry.children.insert name t.size }
        else t.get? q := get?_modify ..
  simp only [addChild]
  generalize (t.modify parent fun entry =>
    { entry with children := entry.children.insert name t.size }) = grown at hsize hget
  simp only [get?] at hget ⊢
  rcases Nat.lt_trichotomy q t.size with hlt | rfl | hgt
  · have hlt' : q < grown.entries.length := lt_of_lt_of_eq hlt hsize.symm
    rw [List.getElem?_append_left hlt', if_neg hlt.ne, hget]
  · rw [← hsize, List.getElem?_append_right (Nat.le_refl grown.size)]
    simp [size]
  · have hle : (grown.entries ++ [({ name, parent := some parent } : Entry)]).length ≤ q := by
      rw [List.length_append, List.length_singleton]
      exact Nat.succ_le_of_lt (lt_of_eq_of_lt hsize hgt)
    have hnone : t.entries[q]? = none := List.getElem?_eq_none hgt.le
    rw [List.getElem?_eq_none hle, if_neg hgt.ne', hnone]
    simp

theorem child?_addChild (hparent : parent < t.size) (q : RegionId) (n : String) :
    (t.addChild parent name).child? q n =
      if q = parent ∧ n = name then some t.size else t.child? q n := by
  simp only [child?, get?_addChild]
  by_cases hq : q = t.size
  · have hne : q ≠ parent := fun h => hparent.ne (h ▸ hq)
    have hnone : t.get? q = none := List.getElem?_eq_none hq.ge
    simp [hq, hq ▸ hnone, hq ▸ hne, SortedMap.get?_empty]
  · by_cases hqp : q = parent
    · obtain ⟨entry, hget⟩ := exists_get?_of_lt_size hparent
      subst hqp
      by_cases hn : n = name
      · simp [hq, hget, hn, SortedMap.get?_insert_self]
      · simp [hq, hget, hn, SortedMap.get?_insert_of_ne hn]
    · simp [hq, hqp]

/-- The tree `t'` has the regions of `t` with their settings, and its other regions are younger and
have default settings. -/
structure Extends (t t' : Tree) : Prop where
  grows : Grows t t'
  settings : ∀ {id}, id < t.size → t'.settings? id = t.settings? id
  fresh : ∀ {id}, t.size ≤ id → id < t'.size → t'.settings? id = some {}

/-- Regions are never lost. -/
theorem Grows.size_le (h : Grows t t') : t.size ≤ t'.size := by
  by_contra hlt
  obtain ⟨entry, hget⟩ := exists_get?_of_lt_size (not_le.1 hlt)
  obtain ⟨entry', hget', -⟩ := h.entry hget
  exact (lt_size_of_get? hget').false

theorem Extends.refl (t : Tree) : Extends t t :=
  ⟨.refl t, fun _ => rfl, fun hle hlt => absurd hlt (not_lt.2 hle)⟩

theorem Extends.trans (h : Extends t t') (h' : Extends t' t'') : Extends t t'' where
  grows := h.grows.trans h'.grows
  settings hid := (h'.settings (hid.trans_le h.grows.size_le)).trans (h.settings hid)
  fresh {id} hle hlt := by
    rcases Nat.lt_or_ge id t'.size with hid | hid
    · rw [h'.settings hid]
      exact h.fresh hle hid
    · exact h'.fresh hid hlt

theorem extends_addChild (hparent : parent < t.size) (hmissing : t.child? parent name = none) :
    Extends t (t.addChild parent name) where
  grows :=
    { entry := by
        intro id entry hget
        have hne : id ≠ t.size := (lt_size_of_get? hget).ne
        rw [get?_addChild, if_neg hne, hget]
        split
        · exact ⟨_, rfl, rfl, rfl⟩
        · exact ⟨_, rfl, rfl, rfl⟩
      child := by
        intro id n c hc
        rw [child?_addChild hparent]
        split
        · next heq =>
          rw [heq.1, heq.2, hmissing] at hc
          cases hc
        · exact hc }
  settings {id} hid := by
    rw [settings?, get?_addChild, if_neg hid.ne]
    split
    · next heq =>
      cases hget : t.get? id <;> simp [settings?, hget]
    · rfl
  fresh {id} hle hlt := by
    have hid : id = t.size := Nat.le_antisymm (lt_size_addChild.1 hlt) hle
    rw [settings?, get?_addChild, if_pos hid]
    rfl

theorem Sound.addChild (h : t.Sound) (hparent : parent < t.size) (hseg : isSegment name = true)
    (hmissing : t.child? parent name = none) : (t.addChild parent name).Sound := by
  have hext := extends_addChild hparent hmissing
  refine ⟨?_, ?_, ?_⟩
  · obtain ⟨entry, hget, hnone⟩ := h.rooted
    obtain ⟨entry', hget', -, hparent'⟩ := hext.grows.entry hget
    exact ⟨entry', hget', hparent'.trans hnone⟩
  · intro id entry' hget' hne
    rcases Nat.lt_or_ge id t.size with hlt | hge
    · obtain ⟨entry, hget⟩ := exists_get?_of_lt_size hlt
      obtain ⟨entry'', hget'', hname, hpar⟩ := hext.grows.entry hget
      rw [hget', Option.some.injEq] at hget''
      subst hget''
      rw [hname, hpar]
      obtain ⟨par, hlt', hpar', hseg', hc⟩ := h.held hget hne
      exact ⟨par, hlt', hpar', hseg', hext.grows.child hc⟩
    · have hid : id = t.size :=
        Nat.le_antisymm (lt_size_addChild.1 (lt_size_of_get? hget')) hge
      rw [get?_addChild, if_pos hid, Option.some.injEq] at hget'
      subst hget'
      refine ⟨parent, hid ▸ hparent, rfl, hseg, ?_⟩
      rw [child?_addChild hparent, if_pos ⟨rfl, rfl⟩, hid]
  · intro id n c hc
    rw [child?_addChild hparent] at hc
    split at hc
    · next heq =>
      obtain ⟨rfl, rfl⟩ := heq
      cases hc
      exact ⟨_, by rw [get?_addChild, if_pos rfl], rfl, rfl⟩
    · obtain ⟨entry, hget, hpar, hname⟩ := h.known hc
      obtain ⟨entry', hget', hname', hpar'⟩ := hext.grows.entry hget
      exact ⟨entry', hget', hpar'.trans hpar, hname'.trans hname⟩

/-- What it is to create the regions on the way to a path: the path leads to the region that is
given back, and no region is new but those. -/
structure Creates (t : Tree) (p : Path) (t' : Tree) (id : RegionId) : Prop where
  sound : t'.Sound
  grown : Extends t t'
  found : t'.resolve p = some id
  exact : ∀ q, (t'.resolve q).isSome ↔ (t.resolve q).isSome ∨ q.contains p = true

theorem Creates.trans {c : RegionId} (h : Creates t p t' id) (h' : Creates t' q t'' c)
    (hpq : p.contains q = true) : Creates t q t'' c where
  sound := h'.sound
  grown := h.grown.trans h'.grown
  found := h'.found
  exact r := by
    rw [h'.exact, h.exact, or_assoc]
    exact or_congr_right (or_iff_right_of_imp fun hr => Path.contains_trans hr hpq)

theorem creates_of_resolve (h : t.Sound) (hp : t.resolve p = some id) : Creates t p t id where
  sound := h
  grown := .refl t
  found := hp
  exact _ := (or_iff_left_of_imp fun hq => isSome_resolve_of_contains (by simp [hp]) hq).symm

/-- A child that is added has one new path. -/
theorem creates_addChild (h : t.Sound) (hp : t.resolve p = some id)
    (hq : q.segments = p.segments ++ [name]) (hmissing : t.child? id name = none) :
    Creates t q (t.addChild id name) t.size := by
  have hid := h.lt_size_of_resolve hp
  have hseg : isSegment name = true := Path.isSegment_of_mem (p := q) (by simp [hq])
  have hext := extends_addChild hid hmissing
  have hsound := h.addChild hid hseg hmissing
  have hfound : (t.addChild id name).resolve q = some t.size := by
    rw [resolve_concat hq, hext.grows.resolve hp, Option.bind_some, child?_addChild hid,
      if_pos ⟨rfl, rfl⟩]
  refine ⟨hsound, hext, hfound, fun r => ⟨fun hr => ?_, ?_⟩⟩
  · obtain ⟨c, hc⟩ := Option.isSome_iff_exists.1 hr
    rcases Nat.lt_or_ge c t.size with hlt | hge
    · -- a region that was there has the path it had
      obtain ⟨r', hr'⟩ := Option.isSome_iff_exists.1 (h.path?_isSome_iff.2 hlt)
      have hkept := hext.grows.path? h hsound hr'
      rw [hsound.resolve_eq_some_iff.1 hc, Option.some.injEq] at hkept
      rw [hkept, h.resolve_eq_some_iff.2 hr']
      exact .inl rfl
    · have hnew : c = t.size :=
        Nat.le_antisymm (lt_size_addChild.1 (hsound.lt_size_of_resolve hc)) hge
      rw [hnew, hsound.resolve_eq_some_iff] at hc
      rw [hsound.resolve_eq_some_iff.1 hfound, Option.some.injEq] at hc
      exact .inr (hc ▸ Path.contains_refl q)
  · rintro (hr | hr)
    · obtain ⟨c, hc⟩ := Option.isSome_iff_exists.1 hr
      rw [hext.grows.resolve hc]
      rfl
    · exact isSome_resolve_of_contains (by rw [hfound]; rfl) hr

theorem creates_ensureChild (h : t.Sound) (hp : t.resolve p = some id)
    (hq : q.segments = p.segments ++ [name]) :
    Creates t q (ensureChild (t, id) name).1 (ensureChild (t, id) name).2 := by
  unfold ensureChild
  cases hc : t.child? id name with
  | some c => exact creates_of_resolve h (by rw [resolve_concat hq, hp]; exact hc)
  | none => exact creates_addChild h hp hq hc

theorem create_concat (hq : q.segments = p.segments ++ [name]) :
    t.create q = ensureChild (t.create p) name := by
  simp [create, hq]

theorem creates_create (h : t.Sound) (p : Path) :
    Creates t p (t.create p).1 (t.create p).2 := by
  induction p using Path.induction_concat with
  | root => exact creates_of_resolve h rfl
  | concat p q name hq ih =>
    rw [create_concat hq]
    have hpq : p.contains q = true := Path.contains_iff.2 (hq ▸ List.prefix_append ..)
    exact ih.trans (creates_ensureChild ih.sound ih.found hq) hpq

/-- A region that is there is found and nothing is added. -/
theorem create_of_resolve (hp : t.resolve p = some id) : t.create p = (t, id) := by
  induction p using Path.induction_concat generalizing id with
  | root =>
    rw [resolve_root, Option.some.injEq] at hp
    exact hp ▸ rfl
  | concat p q name hq ih =>
    rw [resolve_concat hq, Option.bind_eq_some_iff] at hp
    obtain ⟨parent, hparent, hc⟩ := hp
    simp [create_concat hq, ih hparent, ensureChild, hc]

/-! ### Subtrees -/

namespace Sound

variable (h : t.Sound)
include h

/-- A region is at least as young as its path is long. -/
theorem depth_le (hp : t.path? id = some p) : p.depth ≤ id := by
  induction p using Path.induction_concat generalizing id with
  | root => exact Nat.zero_le _
  | concat p q name hq ih =>
    rw [← h.resolve_eq_some_iff, resolve_concat hq, Option.bind_eq_some_iff] at hp
    obtain ⟨parent, hparent, hc⟩ := hp
    have hle := ih (h.resolve_eq_some_iff.1 hparent)
    have hlt := (h.lt_of_child? hc).1
    rw [Path.depth, hq, List.length_append, List.length_singleton]
    exact Nat.succ_le_of_lt (hle.trans_lt hlt)

/-- The path of a region directly in another is one name longer. -/
theorem exists_path_of_mem_children (hp : t.path? id = some p) (hc : c ∈ t.children id) :
    ∃ name q, t.child? id name = some c ∧ t.path? c = some q ∧
      q.segments = p.segments ++ [name] := by
  obtain ⟨name, hname⟩ := mem_children.1 hc
  obtain ⟨entry, hget, -⟩ := h.known hname
  obtain ⟨q, hq⟩ := Option.isSome_iff_exists.1 (h.path?_isSome_iff.2 (lt_size_of_get? hget))
  exact ⟨name, q, hname, hq, h.segments_path? hname hp hq⟩

theorem contains_of_mem_descend {fuel : Nat} (hc : c ∈ t.descend fuel id) (hp : t.path? id = some p) :
    ∃ q, t.path? c = some q ∧ p.contains q = true := by
  induction fuel generalizing id p with
  | zero => cases hc
  | succ fuel ih =>
    rcases List.mem_cons.1 hc with rfl | hc
    · exact ⟨p, hp, Path.contains_refl p⟩
    · obtain ⟨child, hchild, hc⟩ := List.mem_flatMap.1 hc
      obtain ⟨name, p', -, hp', hsegments⟩ := h.exists_path_of_mem_children hp hchild
      obtain ⟨q, hq, hpq⟩ := ih hc hp'
      have hpp' : p.contains p' = true :=
        Path.contains_iff.2 (hsegments ▸ List.prefix_append ..)
      exact ⟨q, hq, Path.contains_trans hpp' hpq⟩

theorem mem_descend {fuel : Nat} (hp : t.path? id = some p) (hq : t.path? c = some q)
    (hpq : p.contains q = true) (hfuel : q.depth < p.depth + fuel) : c ∈ t.descend fuel id := by
  induction fuel generalizing id p with
  | zero => exact absurd (Path.depth_le_of_contains hpq) (not_le.2 hfuel)
  | succ fuel ih =>
    obtain ⟨rest, hrest⟩ := Path.contains_iff.1 hpq
    cases rest with
    | nil =>
      -- the paths are the same, so the regions are
      have heq : p = q := Path.ext_segments (by rw [← hrest, List.append_nil])
      have hid := h.resolve_eq_some_iff.2 hp
      rw [heq, h.resolve_eq_some_iff.2 hq, Option.some.injEq] at hid
      exact hid ▸ List.mem_cons_self
    | cons name rest =>
      let p' : Path := ⟨p.segments ++ [name], by
        simp [p.proper, Path.isSegment_of_mem (p := q) (s := name) (by simp [← hrest])]⟩
      have hp'q : p'.contains q = true :=
        Path.contains_iff.2 ⟨rest, by simpa [p'] using hrest⟩
      have hsome : (t.resolve p').isSome :=
        isSome_resolve_of_contains (by simp [h.resolve_eq_some_iff.2 hq]) hp'q
      obtain ⟨child, hchild⟩ := Option.isSome_iff_exists.1 hsome
      have hname : t.child? id name = some child := by
        rw [resolve_concat (p := p) rfl, h.resolve_eq_some_iff.2 hp] at hchild
        exact hchild
      refine List.mem_cons_of_mem _ (List.mem_flatMap.2 ⟨child, mem_children.2 ⟨name, hname⟩, ?_⟩)
      refine ih (h.resolve_eq_some_iff.1 hchild) hp'q ?_
      have hdepth : p'.depth = p.depth + 1 := by simp [Path.depth, p']
      omega

/-- **The subtree of a region** holds the regions whose paths lie in its path. -/
theorem mem_subtree_iff (hp : t.path? id = some p) :
    c ∈ t.subtree id ↔ ∃ q, t.path? c = some q ∧ p.contains q = true := by
  obtain ⟨entry, hget⟩ := exists_get?_of_lt_size (lt_size_of_path? hp)
  simp only [subtree, hget]
  constructor
  · exact fun hc => h.contains_of_mem_descend hc hp
  · rintro ⟨q, hq, hpq⟩
    refine h.mem_descend hp hq hpq (Nat.lt_add_left _ ?_)
    exact (h.depth_le hq).trans_lt (lt_size_of_path? hq)

end Sound

end FleetControl.Region.Tree
