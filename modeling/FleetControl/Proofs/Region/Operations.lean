import FleetControl.Proofs.Region.Tree

/-!
# Operations on region trees

A tree is built from the root alone by operations (`Tree.Op`): regions are created on the way to a
path or declared, and settings are changed. Every tree that is built so is sound
(`Tree.sound_performAll`), and an operation keeps what was there (`Sound.successor_perform`).

Hence ids and paths name the same regions after every sequence of operations
(`Tree.indexed_performAll`).
-/

namespace FleetControl.Region.Tree

variable {t t' t'' : Tree} {p q : Path} {id : RegionId}

/-! ### Operations -/

/-- What is done to a tree. -/
inductive Op where
  /-- Look a path up and add what is missing on the way. -/
  | create (text : String)
  /-- Declare regions one after the other. -/
  | apply (declarations : List Declaration)
  /-- Change the settings of a region. -/
  | configure (id : RegionId) (change : Settings → Settings)

/-- Carry out an operation. One that fails leaves the tree as far as it came. -/
def perform (t : Tree) : Op → Tree
  | .create text =>
    match t.createText text with
    | .ok (t', _) => t'
    | .error _ => t
  | .apply declarations => (t.apply declarations).1
  | .configure id change =>
    match t.updateSettings id change with
    | .ok t' => t'
    | .error _ => t

/-- Carry out operations one after the other. -/
def performAll (t : Tree) (ops : List Op) : Tree := ops.foldl perform t

theorem createText_of_parse {text : String} (h : Path.parse text = .ok p) :
    t.createText text = .ok (t.create p) := by
  simp [createText, h, bind, Except.bind, pure, Except.pure]

theorem createText_of_parse_error {text : String} {e : Error} (h : Path.parse text = .error e) :
    t.createText text = .error e := by
  simp [createText, h, bind, Except.bind]

/-- A tree that is sound and holds what `t` holds. -/
structure Successor (t t' : Tree) : Prop where
  sound : t'.Sound
  grows : Grows t t'

theorem Sound.successor_refl (h : t.Sound) : Successor t t := ⟨h, .refl t⟩

theorem Successor.trans (h : Successor t t') (h' : Successor t' t'') : Successor t t'' :=
  ⟨h'.sound, h.grows.trans h'.grows⟩

theorem Sound.successor_create (h : t.Sound) (p : Path) : Successor t (t.create p).1 :=
  ⟨(creates_create h p).sound, (creates_create h p).grown.grows⟩

theorem Sound.successor_updateSettings (h : t.Sound) {f : Settings → Settings}
    (ht' : t.updateSettings id f = .ok t') : Successor t t' :=
  have hreset := resets_of_updateSettings ht'
  ⟨hreset.sound h, hreset.grows⟩

theorem Sound.successor_declare (h : t.Sound) {d : Declaration} (ht' : t.declare d = .ok t') :
    Successor t t' := by
  cases hp : Path.parse d.path with
  | error e => simp [declare, createText_of_parse_error hp, bind, Except.bind] at ht'
  | ok p =>
    simp only [declare, createText_of_parse hp, bind, Except.bind] at ht'
    exact (h.successor_create p).trans ((h.successor_create p).sound.successor_updateSettings ht')

theorem Sound.successor_apply (h : t.Sound) (ds : List Declaration) :
    Successor t (t.apply ds).1 := by
  induction ds generalizing t with
  | nil => exact h.successor_refl
  | cons d rest ih =>
    unfold Tree.apply
    cases hd : t.declare d with
    | error e => exact h.successor_refl
    | ok t' => exact (h.successor_declare hd).trans (ih (h.successor_declare hd).sound)

theorem Sound.successor_perform (h : t.Sound) (op : Op) : Successor t (t.perform op) := by
  cases op with
  | create text =>
    unfold perform
    cases hp : Path.parse text with
    | error e => simpa [createText_of_parse_error hp] using h.successor_refl
    | ok p => simpa [createText_of_parse hp] using h.successor_create p
  | apply ds => exact h.successor_apply ds
  | configure id f =>
    unfold perform
    cases hu : t.updateSettings id f with
    | error e => simpa [hu] using h.successor_refl
    | ok t' => simpa [hu] using h.successor_updateSettings hu

theorem Sound.successor_performAll (h : t.Sound) (ops : List Op) :
    Successor t (t.performAll ops) := by
  induction ops generalizing t with
  | nil => exact h.successor_refl
  | cons op rest ih =>
    exact (h.successor_perform op).trans (ih (h.successor_perform op).sound)

theorem sound_new : new.Sound where
  rooted := ⟨_, rfl, rfl⟩
  held {id entry} hget hne := by
    have : id < 1 := lt_size_of_get? hget
    exact absurd (Nat.lt_one_iff.1 this) hne
  known {id name c} hc := by
    obtain ⟨entry, hget, hc⟩ := child?_eq_some.1 hc
    have hroot : id = root := Nat.lt_one_iff.1 (lt_size_of_get? hget)
    rw [hroot] at hget
    cases hget
    rw [SortedMap.get?_empty] at hc
    cases hc

/-- Every tree that operations build from the root alone is sound. -/
theorem sound_performAll (ops : List Op) : (new.performAll ops).Sound :=
  (sound_new.successor_performAll ops).sound

/-! ### The index of a tree -/

/-- The names on the way from the root to a region, joined by dots. -/
def joined (t : Tree) (id : RegionId) : String :=
  String.ofList (['.'].intercalate
    (((t.lineage id).reverse.tail.filterMap t.name?).map String.toList))

/-- Ids and paths name the same regions, and parents and children agree. -/
structure Indexed (t : Tree) : Prop where
  /-- The root has the id 0 and the empty path, and there is no region around it. -/
  rooted : t.path? 0 = some Path.root ∧ t.parent? 0 = none
  /-- The ids are the numbers below the size, and every region has a path. -/
  defined : ∀ id, (t.path? id).isSome ↔ id < t.size
  /-- The path is the one that the names on the way from the root are read as, joined by dots. -/
  read : ∀ id, id < t.size → (Path.parse (t.joined id)).toOption = t.path? id
  /-- A path leads to a region exactly if it is the path of the region. -/
  inverse : ∀ id p, t.resolve p = some id ↔ t.path? id = some p
  /-- The same goes for the path as it is written. -/
  written : ∀ id p, t.path? id = some p → t.resolveText p.toString = .ok (some id)
  /-- With a path every path around it leads to a region. -/
  closed : ∀ p q, (t.resolve p).isSome → q.contains p = true → (t.resolve q).isSome
  /-- The parent of a region is older and holds it under its name. -/
  parents : ∀ id, id ≠ 0 → id < t.size → ∃ parent < id, ∃ name,
    t.parent? id = some parent ∧ t.name? id = some name ∧ t.child? parent name = some id
  /-- Nothing else is held. -/
  children : ∀ parent name id, t.child? parent name = some id →
    t.parent? id = some parent ∧ t.name? id = some name

theorem Sound.indexed (h : t.Sound) : t.Indexed where
  rooted := by
    obtain ⟨entry, hget, hnone⟩ := h.rooted
    exact ⟨h.path?_root, by rw [parent?, show (0 : RegionId) = root from rfl, hget]; exact hnone⟩
  defined _ := h.path?_isSome_iff
  read id hid := by
    obtain ⟨p, hp, -⟩ := h.exists_path hid
    obtain ⟨entry, hget⟩ := exists_get?_of_lt_size hid
    have hnames := hp
    rw [path?, hget, Option.bind_some, Path.ofSegments?_eq_some] at hnames
    rw [hp, joined, ← hnames]
    exact congrArg Except.toOption p.parse_toString
  inverse _ _ := h.resolve_eq_some_iff
  written id p hp := by
    simp only [resolveText, Path.parse_toString, bind, Except.bind, pure, Except.pure,
      h.resolve_eq_some_iff.2 hp]
  closed _ _ := isSome_resolve_of_contains
  parents id hne hid := by
    obtain ⟨entry, hget⟩ := exists_get?_of_lt_size hid
    obtain ⟨parent, hlt, hparent, -, hc⟩ := h.held hget hne
    exact ⟨parent, hlt, entry.name, by simp [parent?, hget, hparent], by simp [name?, hget], hc⟩
  children parent name id hc := by
    obtain ⟨entry, hget, hparent, hname⟩ := h.known hc
    exact ⟨by simp [parent?, hget, hparent], by simp [name?, hget, hname]⟩

/-- What creating the regions on the way to a path does to a tree. -/
structure Creation (t : Tree) (p : Path) (t' : Tree) (id : RegionId) : Prop where
  /-- The region that is given back has the path. -/
  found : t'.path? id = some p
  /-- Whatever is done afterwards, the path is the same region and nothing is added again. -/
  lasting : ∀ ops, (t'.performAll ops).create p = (t'.performAll ops, id)
  /-- The regions that were there keep their id, their parent and their settings. -/
  kept : ∀ id < t.size, t'.path? id = t.path? id ∧ t'.parent? id = t.parent? id ∧
    t'.settings? id = t.settings? id
  /-- The regions that are new are on the way to the path, were missing and have default
  settings. -/
  fresh : ∀ id q, t.size ≤ id → t'.path? id = some q →
    q.contains p = true ∧ t.resolve q = none ∧ t'.settings? id = some {}
  /-- All that was missing on the way is there. -/
  complete : ∀ q, q.contains p = true → t.resolve q = none →
    ∃ id, t.size ≤ id ∧ t'.path? id = some q

theorem Creates.creation (ht : t.Sound) (h : Creates t p t' id) : Creation t p t' id where
  found := h.sound.resolve_eq_some_iff.1 h.found
  lasting ops := create_of_resolve ((h.sound.successor_performAll ops).grows.resolve h.found)
  kept c hc := by
    obtain ⟨q, hq⟩ := Option.isSome_iff_exists.1 (ht.path?_isSome_iff.2 hc)
    obtain ⟨entry, hget⟩ := exists_get?_of_lt_size hc
    obtain ⟨entry', hget', -, hparent⟩ := h.grown.grows.entry hget
    refine ⟨?_, ?_, h.grown.settings hc⟩
    · rw [hq, h.grown.grows.path? ht h.sound hq]
    · simp [parent?, hget, hget', hparent]
  fresh c q hc hq := by
    have hsome : (t'.resolve q).isSome := by simp [h.sound.resolve_eq_some_iff.2 hq]
    have hnone : t.resolve q = none := by
      refine Option.eq_none_iff_forall_ne_some.2 fun c' hc' => ?_
      have := h.grown.grows.resolve hc'
      rw [h.sound.resolve_eq_some_iff.2 hq, Option.some.injEq] at this
      exact absurd (ht.lt_size_of_resolve hc') (not_lt.2 (this ▸ hc))
    refine ⟨?_, hnone, h.grown.fresh hc (lt_size_of_path? hq)⟩
    exact ((h.exact q).1 hsome).resolve_left (by simp [hnone])
  complete q hq hnone := by
    obtain ⟨c, hc⟩ := Option.isSome_iff_exists.1 ((h.exact q).2 (.inr hq))
    refine ⟨c, ?_, h.sound.resolve_eq_some_iff.1 hc⟩
    by_contra hlt
    obtain ⟨q', hq'⟩ := Option.isSome_iff_exists.1 (ht.path?_isSome_iff.2 (not_le.1 hlt))
    have hkept := h.grown.grows.path? ht h.sound hq'
    rw [h.sound.resolve_eq_some_iff.1 hc, Option.some.injEq] at hkept
    rw [hkept, ht.resolve_eq_some_iff.2 hq'] at hnone
    cases hnone

/-- **Ids and paths name the same regions**, after every sequence of operations, those that fail
included. Creating the regions on the way to a path adds exactly what is missing, leaves the rest
as it was and gives back a region that the path leads to ever after; a text that is no path changes
nothing. -/
theorem indexed_performAll (ops : List Op) :
    let t := new.performAll ops
    t.Indexed ∧ ∀ text,
      match t.createText text with
      | .ok (t', id) => t.perform (.create text) = t' ∧
          ∃ p, Path.parse text = .ok p ∧ Creation t p t' id
      | .error e => t.perform (.create text) = t ∧ Path.parse text = .error e := by
  intro t
  have ht : t.Sound := sound_performAll ops
  refine ⟨ht.indexed, fun text => ?_⟩
  cases hp : Path.parse text with
  | error e => simp [createText_of_parse_error hp, perform]
  | ok p =>
    simp only [createText_of_parse hp, perform, Except.ok.injEq, exists_eq_left', true_and]
    exact (creates_create ht p).creation ht

end FleetControl.Region.Tree
