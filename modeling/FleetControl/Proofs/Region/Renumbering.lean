import FleetControl.Proofs.Region.Declarations
import FleetControl.Region.View

/-!
# Trees that number their regions differently

Ids are given in the order of creation. So two trees can have the same regions with the same settings
under different ids (`Tree.Renumbers`). What is seen of such trees through paths is the same: their
size (`Renumbers.size_eq`), the names of children, the effective properties (`Renumbers.seenAlike`)
and the outline (`Renumbers.outline_eq`).

The tree of a list of declarations with texts of their own has the same regions with the same settings
in whatever order they are declared (`Declared.renumbers`).

Lists of ids are compared through the lists of their paths. Whatever is looked up by id is then a
function of the path (`Tree.Sound.filterMap_eq`), and the subtrees below one path list the same paths
in the same order, since children are listed by name (`Renumbers.map_path?_subtree`).
-/

namespace FleetControl.Region

/-- The settings up to the first that does not inherit. -/
def Settings.chain : List Settings → List Settings
  | [] => []
  | s :: rest => s :: if s.inheritProperties then Settings.chain rest else []

namespace Tree

variable {t t' : Tree} {p q : Path} {id id' : RegionId} {α : Type}

/-- What is looked up by id, at a path. -/
def look (t : Tree) (f : RegionId → Option α) (p : Path) : Option α := (t.resolve p).bind f

/-- The names of the regions directly in a region. -/
def childNames (t : Tree) (id : RegionId) : List String :=
  match t.get? id with
  | some entry => entry.children.keys
  | none => []

/-! ### One tree -/

theorem mem_childNames {name : String} :
    name ∈ t.childNames id ↔ ∃ c, t.child? id name = some c := by
  unfold childNames child?
  cases t.get? id with
  | none => simp
  | some entry => exact SortedMap.mem_keys

theorem pairwise_childNames (t : Tree) (id : RegionId) :
    (t.childNames id).Pairwise fun a b => compare a b = .lt := by
  unfold childNames
  cases t.get? id with
  | none => exact List.Pairwise.nil
  | some entry => exact List.pairwise_map.2 entry.children.ascending

theorem children_eq (t : Tree) (id : RegionId) :
    t.children id = (t.childNames id).filterMap (t.child? id) := by
  unfold children childNames child?
  cases hget : t.get? id with
  | none => rfl
  | some entry =>
    show entry.children.values = entry.children.keys.filterMap entry.children.get?
    rw [SortedMap.keys, SortedMap.values, List.filterMap_map, ← List.filterMap_eq_map]
    exact List.filterMap_congr fun e he => (SortedMap.mem_toList.1 he).symm

theorem settings?_eq_none (hid : t.size ≤ id) : t.settings? id = none := by
  rw [settings?, get?_eq_none hid, Option.map_none]

theorem path?_eq_none (hid : t.size ≤ id) : t.path? id = none := by
  rw [path?, get?_eq_none hid, Option.bind_none]

theorem view?_eq_none (hid : t.size ≤ id) : t.view? id = none := by
  simp [view?, get?_eq_none hid]

namespace Sound

variable (h : t.Sound)
include h

/-- What is looked up by the id of a region is looked up by its path. -/
theorem bind_look {f : RegionId → Option α} (hf : ∀ {id}, t.size ≤ id → f id = none)
    (id : RegionId) : (t.path? id).bind (t.look f) = f id := by
  rcases Nat.lt_or_ge id t.size with hlt | hge
  · obtain ⟨p, hp, hresolve⟩ := h.exists_path hlt
    rw [hp, Option.bind_some, look, hresolve, Option.bind_some]
  · rw [path?_eq_none hge, hf hge, Option.bind_none]

/-- **What is looked up for a list of ids is a function of the list of their paths.** -/
theorem filterMap_eq {f : RegionId → Option α} (hf : ∀ {id}, t.size ≤ id → f id = none)
    (ids : List RegionId) :
    ids.filterMap f = (ids.map t.path?).filterMap fun p => p.bind (t.look f) := by
  rw [List.filterMap_map]
  exact List.filterMap_congr fun id _ => (h.bind_look hf id).symm

/-- The paths of the regions, in the order of creation, are as many as the regions. -/
theorem length_paths : ((List.range t.size).filterMap t.path?).length = t.size := by
  have hall : ∀ id ∈ List.range t.size, (t.path? id).isSome = true := fun id hid =>
    h.path?_isSome_iff.2 (List.mem_range.1 hid)
  rw [List.filterMap_length_eq_length.2 hall, List.length_range]

theorem nodup_paths : ((List.range t.size).filterMap t.path?).Nodup := by
  refine List.Nodup.filterMap (fun a b p ha hb => ?_) List.nodup_range
  have hb' := h.resolve_eq_some_iff.2 hb
  rw [h.resolve_eq_some_iff.2 ha, Option.some.injEq] at hb'
  exact hb'

theorem mem_paths : p ∈ (List.range t.size).filterMap t.path? ↔ (t.resolve p).isSome := by
  simp only [List.mem_filterMap, List.mem_range, Option.isSome_iff_exists, h.resolve_eq_some_iff]
  exact exists_congr fun id => and_iff_right_of_imp lt_size_of_path?

theorem exists_settings? (hp : t.resolve p = some id) : ∃ s, t.settings? id = some s := by
  obtain ⟨entry, hget⟩ := exists_get?_of_lt_size (h.lt_size_of_resolve hp)
  exact ⟨entry.settings, by rw [settings?, hget, Option.map_some]⟩

omit h in
/-- What counts for a region is read off its lineage. -/
theorem inheritance_eq_chain (fuel : Nat) (id : RegionId) :
    t.inheritance fuel id = Settings.chain ((t.climb fuel id).filterMap t.settings?) := by
  induction fuel generalizing id with
  | zero => rfl
  | succ fuel ih =>
    simp only [inheritance, climb]
    cases hget : t.get? id with
    | none => rfl
    | some entry =>
      have hs : t.settings? id = some entry.settings := by rw [settings?, hget, Option.map_some]
      dsimp only
      rw [List.filterMap_cons_some hs, Settings.chain]
      cases entry.parent with
      | none => rfl
      | some parent => rw [Option.elim_some, Option.elim_some, ih]

end Sound

/-! ### Two trees -/

/-- The trees have the same regions with the same settings, each under ids of its own. -/
structure Renumbers (t t' : Tree) : Prop where
  sound : t.Sound
  sound' : t'.Sound
  settings : ∀ p, t'.look t'.settings? p = t.look t.settings? p

namespace Renumbers

theorem symm (h : Renumbers t t') : Renumbers t' t :=
  ⟨h.sound', h.sound, fun p => (h.settings p).symm⟩

/-- A path leads to a region in both trees or in none. -/
theorem exists_resolve (h : Renumbers t t') (hp : t.resolve p = some id) :
    ∃ id', t'.resolve p = some id' := by
  obtain ⟨s, hs⟩ := h.sound.exists_settings? hp
  have hsettings := h.settings p
  rw [look, look, hp, Option.bind_some, hs, Option.bind_eq_some_iff] at hsettings
  obtain ⟨id', hid', -⟩ := hsettings
  exact ⟨id', hid'⟩

theorem resolve_eq_none_iff (h : Renumbers t t') : t'.resolve p = none ↔ t.resolve p = none := by
  simp only [Option.eq_none_iff_forall_ne_some]
  constructor
  · intro hnone id hid
    obtain ⟨id', hid'⟩ := h.exists_resolve hid
    exact hnone id' hid'
  · intro hnone id' hid'
    obtain ⟨id, hid⟩ := h.symm.exists_resolve hid'
    exact hnone id hid

theorem settings?_eq (h : Renumbers t t') (hp : t.resolve p = some id)
    (hp' : t'.resolve p = some id') : t'.settings? id' = t.settings? id := by
  have hsettings := h.settings p
  rwa [look, look, hp, hp', Option.bind_some, Option.bind_some] at hsettings

theorem size_eq (h : Renumbers t t') : t'.size = t.size := by
  have hperm := (List.perm_ext_iff_of_nodup h.sound'.nodup_paths h.sound.nodup_paths).2 fun p => by
    rw [h.sound'.mem_paths, h.sound.mem_paths, ← Option.ne_none_iff_isSome,
      ← Option.ne_none_iff_isSome, Ne, Ne, h.resolve_eq_none_iff]
  rw [← h.sound'.length_paths, hperm.length_eq, h.sound.length_paths]

/-- A child in one tree has a counterpart in the other, at the same path. -/
theorem child? (h : Renumbers t t') (hp : t.resolve p = some id) (hp' : t'.resolve p = some id')
    {name : String} {c : RegionId} (hc : t.child? id name = some c) :
    ∃ q c', t'.child? id' name = some c' ∧ t.resolve q = some c ∧ t'.resolve q = some c' := by
  let q : Path := ⟨p.segments ++ [name], by simp [p.proper, (h.sound.lt_of_child? hc).2]⟩
  have hq : t.resolve q = some c := by rw [resolve_concat (p := p) rfl, hp]; exact hc
  obtain ⟨c', hc'⟩ := h.exists_resolve hq
  refine ⟨q, c', ?_, hq, hc'⟩
  rwa [resolve_concat (p := p) rfl, hp'] at hc'

/-- The children have the same names. -/
theorem childNames_eq (h : Renumbers t t') (hp : t.resolve p = some id)
    (hp' : t'.resolve p = some id') : t'.childNames id' = t.childNames id := by
  refine SortedMap.eq_of_ascending (fun name => name) (t'.pairwise_childNames id')
    (t.pairwise_childNames id) fun name => ?_
  rw [mem_childNames, mem_childNames]
  constructor
  · rintro ⟨c', hc'⟩
    obtain ⟨-, c, hc, -⟩ := h.symm.child? hp' hp hc'
    exact ⟨c, hc⟩
  · rintro ⟨c, hc⟩
    obtain ⟨-, c', hc', -⟩ := h.child? hp hp' hc
    exact ⟨c', hc'⟩

/-- What is looked up for two lists of regions with the same paths is the same if it is the same at
every path. -/
theorem filterMap_eq (h : Renumbers t t') {f f' : RegionId → Option α}
    (hf : ∀ {id}, t.size ≤ id → f id = none) (hf' : ∀ {id}, t'.size ≤ id → f' id = none)
    {ids ids' : List RegionId} (hids : ids'.map t'.path? = ids.map t.path?)
    (hlook : ∀ q, t'.look f' q = t.look f q) : ids'.filterMap f' = ids.filterMap f := by
  rw [h.sound'.filterMap_eq hf', h.sound.filterMap_eq hf, hids, funext hlook]

/-- Looking up is the same at every path if it is the same for all counterparts. -/
theorem look_eq (h : Renumbers t t') {f f' : RegionId → Option α}
    (hf : ∀ id id', t.resolve p = some id → t'.resolve p = some id' → f' id' = f id) :
    t'.look f' p = t.look f p := by
  unfold look
  cases hp : t.resolve p with
  | none => rw [h.resolve_eq_none_iff.2 hp]; rfl
  | some id =>
    obtain ⟨id', hp'⟩ := h.exists_resolve hp
    rw [hp']
    exact hf id id' hp hp'

/-! ### Subtrees -/

/-- The subtrees list the same paths in the same order. -/
theorem map_path?_descend (h : Renumbers t t') (fuel : Nat) (hp : t.resolve p = some id)
    (hp' : t'.resolve p = some id') :
    (t'.descend fuel id').map t'.path? = (t.descend fuel id).map t.path? := by
  induction fuel generalizing p id id' with
  | zero => rfl
  | succ fuel ih =>
    have hbelow : ∀ names : List String,
        ((names.filterMap (t'.child? id')).flatMap (t'.descend fuel)).map t'.path? =
          ((names.filterMap (t.child? id)).flatMap (t.descend fuel)).map t.path? := by
      intro names
      induction names with
      | nil => rfl
      | cons name rest ihrest =>
        cases hc : t.child? id name with
        | none =>
          have hc' : t'.child? id' name = none := by
            refine Option.eq_none_iff_forall_ne_some.2 fun c' hc' => ?_
            obtain ⟨-, c, hc₀, -⟩ := h.symm.child? hp' hp hc'
            rw [hc] at hc₀
            cases hc₀
          rw [List.filterMap_cons_none hc', List.filterMap_cons_none hc, ihrest]
        | some c =>
          obtain ⟨q, c', hc', hq, hq'⟩ := h.child? hp hp' hc
          rw [List.filterMap_cons_some hc', List.filterMap_cons_some hc, List.flatMap_cons,
            List.flatMap_cons, List.map_append, List.map_append, ih hq hq', ihrest]
    simp only [descend, List.map_cons, children_eq, h.childNames_eq hp hp', hbelow,
      h.sound.resolve_eq_some_iff.1 hp, h.sound'.resolve_eq_some_iff.1 hp']

theorem map_path?_subtree (h : Renumbers t t') (hp : t.resolve p = some id)
    (hp' : t'.resolve p = some id') :
    (t'.subtree id').map t'.path? = (t.subtree id).map t.path? := by
  obtain ⟨entry, hget⟩ := exists_get?_of_lt_size (h.sound.lt_size_of_resolve hp)
  obtain ⟨entry', hget'⟩ := exists_get?_of_lt_size (h.sound'.lt_size_of_resolve hp')
  simp only [subtree, hget, hget', h.size_eq]
  exact h.map_path?_descend t.size hp hp'

/-! ### Properties -/

/-- The regions on the way up have the same paths. -/
theorem map_path?_lineage (h : Renumbers t t') (hp : t.resolve p = some id)
    (hp' : t'.resolve p = some id') :
    (t'.lineage id').map t'.path? = (t.lineage id).map t.path? := by
  have hpath := h.sound.resolve_eq_some_iff.1 hp
  have hpath' := h.sound'.resolve_eq_some_iff.1 hp'
  induction p using Path.induction_concat generalizing id id' with
  | root =>
    rw [resolve_root, Option.some.injEq] at hp hp'
    subst hp hp'
    rw [h.sound.lineage_root, h.sound'.lineage_root, List.map_singleton, List.map_singleton,
      hpath, hpath']
  | concat p q name hq ih =>
    rw [resolve_concat hq, Option.bind_eq_some_iff] at hp hp'
    obtain ⟨parent, hparent, hc⟩ := hp
    obtain ⟨parent', hparent', hc'⟩ := hp'
    rw [h.sound.lineage_child hc, h.sound'.lineage_child hc', List.map_cons, List.map_cons, hpath,
      hpath', ih hparent hparent' (h.sound.resolve_eq_some_iff.1 hparent)
        (h.sound'.resolve_eq_some_iff.1 hparent')]

theorem inheritance_eq (h : Renumbers t t') (hp : t.resolve p = some id)
    (hp' : t'.resolve p = some id') :
    t'.inheritance (id' + 1) id' = t.inheritance (id + 1) id := by
  rw [Sound.inheritance_eq_chain, Sound.inheritance_eq_chain]
  exact congrArg Settings.chain
    (h.filterMap_eq settings?_eq_none settings?_eq_none (h.map_path?_lineage hp hp') h.settings)

theorem effectiveProperties_eq (h : Renumbers t t') (hp : t.resolve p = some id)
    (hp' : t'.resolve p = some id') : t'.effectiveProperties id' = t.effectiveProperties id := by
  obtain ⟨entry, hget⟩ := exists_get?_of_lt_size (h.sound.lt_size_of_resolve hp)
  obtain ⟨entry', hget'⟩ := exists_get?_of_lt_size (h.sound'.lt_size_of_resolve hp')
  simp only [effectiveProperties, hget, hget', h.inheritance_eq hp hp']

end Renumbers

/-! ### Views -/

theorem view?_eq_some {v : View} (h : t.view? id = some v) : ∃ entry, t.get? id = some entry ∧
    t.path? id = some v.path ∧ v.name = entry.name ∧ v.parent = entry.parent ∧
    v.settings = entry.settings := by
  simp only [view?, bind, Option.bind_eq_some_iff] at h
  obtain ⟨entry, hget, path, hpath, properties, -, hv⟩ := h
  cases hv
  exact ⟨entry, hget, hpath, rfl, rfl, rfl⟩

theorem exists_view? (hp : t.path? id = some p) :
    ∃ v, t.view? id = some v := by
  obtain ⟨entry, hget⟩ := exists_get?_of_lt_size (lt_size_of_path? hp)
  have hsome : (t.view? id).isSome := by
    simp [view?, hget, hp, effectiveProperties, Except.toOption]
  exact Option.isSome_iff_exists.1 hsome

namespace Renumbers

/-- The line of a region is the same in both trees: its id is not shown. -/
theorem line_eq (h : Renumbers t t') (hp : t.resolve p = some id) (hp' : t'.resolve p = some id') :
    (t'.view? id').map View.line = (t.view? id).map View.line := by
  have hpath := h.sound.resolve_eq_some_iff.1 hp
  have hpath' := h.sound'.resolve_eq_some_iff.1 hp'
  obtain ⟨v, hv⟩ := exists_view? hpath
  obtain ⟨v', hv'⟩ := exists_view? hpath'
  obtain ⟨entry, hget, hvpath, hname, hparent, hsettings⟩ := view?_eq_some hv
  obtain ⟨entry', hget', hvpath', hname', hparent', hsettings'⟩ := view?_eq_some hv'
  have hsame : v'.settings = v.settings := by
    have heq := h.settings?_eq hp hp'
    rw [settings?, settings?, hget, hget', Option.map_some, Option.map_some, Option.some.injEq]
      at heq
    rw [hsettings, hsettings', heq]
  have hplace : v'.path = v.path := by
    rw [hpath, Option.some.injEq] at hvpath
    rw [hpath', Option.some.injEq] at hvpath'
    rw [← hvpath, ← hvpath']
  -- the root is labelled as such, every other region by the last name of its path
  have hlabel : (if v'.parent.isNone then "(root)" else v'.name) =
      if v.parent.isNone then "(root)" else v.name := by
    rw [hname, hname', hparent, hparent']
    induction p using Path.induction_concat with
    | root =>
      rw [resolve_root, Option.some.injEq] at hp hp'
      subst hp hp'
      obtain ⟨e, he, hnone⟩ := h.sound.rooted
      obtain ⟨e', he', hnone'⟩ := h.sound'.rooted
      rw [hget, Option.some.injEq] at he
      rw [hget', Option.some.injEq] at he'
      rw [he, he', hnone, hnone']
      rfl
    | concat p q name hq =>
      rw [resolve_concat hq, Option.bind_eq_some_iff] at hp hp'
      obtain ⟨parent, -, hc⟩ := hp
      obtain ⟨parent', -, hc'⟩ := hp'
      obtain ⟨e, he, hpar, hn⟩ := h.sound.known hc
      obtain ⟨e', he', hpar', hn'⟩ := h.sound'.known hc'
      rw [hget, Option.some.injEq] at he
      rw [hget', Option.some.injEq] at he'
      rw [he, he', hpar, hpar', hn, hn']
      rfl
  rw [hv, hv', Option.map_some, Option.map_some, View.line, View.line, hlabel, hplace, hsame]

/-- **The outlines are the same.** -/
theorem outline_eq (h : Renumbers t t') : t'.outline = t.outline := by
  have hlines : ((t'.subtree root).filterMap fun id => (t'.view? id).map View.line) =
      (t.subtree root).filterMap fun id => (t.view? id).map View.line :=
    h.filterMap_eq (fun hid => by rw [view?_eq_none hid, Option.map_none])
      (fun hid => by rw [view?_eq_none hid, Option.map_none])
      (h.map_path?_subtree (p := Path.root) rfl rfl) fun q => h.look_eq fun id id' => h.line_eq
  rw [outline, outline, views, views, List.map_filterMap, List.map_filterMap, hlines]

end Renumbers

/-- What is seen at every path is the same. -/
structure SeenAlike (t t' : Tree) : Prop where
  settings : ∀ p, (t'.resolve p).bind t'.settings? = (t.resolve p).bind t.settings?
  childNames : ∀ p, (t'.resolve p).map t'.childNames = (t.resolve p).map t.childNames
  effectiveProperties : ∀ p,
    (t'.resolve p).map t'.effectiveProperties = (t.resolve p).map t.effectiveProperties

/-- **What is seen of the regions through their paths is the same.** -/
theorem Renumbers.seenAlike (h : Renumbers t t') : SeenAlike t t' where
  settings := h.settings
  childNames p := by
    rw [Option.map_eq_bind, Option.map_eq_bind]
    exact h.look_eq fun id id' hp hp' => congrArg some (h.childNames_eq hp hp')
  effectiveProperties p := by
    rw [Option.map_eq_bind, Option.map_eq_bind]
    exact h.look_eq fun id id' hp hp' => congrArg some (h.effectiveProperties_eq hp hp')

/-! ### The order of declarations -/

theorem Sound.look_settings? (h : t.Sound) (p : Path) :
    t.look t.settings? p = if (t.resolve p).isSome then some (t.settingsOf p) else none := by
  unfold look
  cases hp : t.resolve p with
  | none => rfl
  | some id => exact h.settings?_eq (h.resolve_eq_some_iff.1 hp)

/-- Declarations in another order make a tree that differs at most in the ids. -/
theorem Declared.renumbers {ds ds' : List Declaration} (h : Declared new ds t)
    (h' : Declared new ds' t') (hperm : ds.Perm ds') (hnodup : (ds.map (·.path)).Nodup) :
    Renumbers t t' where
  sound := h.sound
  sound' := h'.sound
  settings p := by
    have hsome : (t'.resolve p).isSome = (t.resolve p).isSome := by
      rw [Bool.eq_iff_iff, h'.exact, h.exact]
      simp only [hperm.mem_iff]
    have hsettings : t'.settingsOf p = t.settingsOf p := by
      by_cases hdeclared : ∃ d ∈ ds, Path.parse d.path = .ok p
      · obtain ⟨d, hd, hp⟩ := hdeclared
        rw [h.settingsOf_declared hnodup hd hp, h'.settingsOf_declared
          ((hperm.map _).nodup_iff.1 hnodup) (hperm.mem_iff.1 hd) hp]
      · have hnone : ∀ d ∈ ds, Path.parse d.path ≠ .ok p := fun d hd hp => hdeclared ⟨d, hd, hp⟩
        rw [h.settingsOf_undeclared hnone, h'.settingsOf_undeclared fun d hd =>
          hnone d (hperm.mem_iff.2 hd)]
    rw [h'.sound.look_settings?, h.sound.look_settings?, hsome, hsettings]

end Tree

end FleetControl.Region
