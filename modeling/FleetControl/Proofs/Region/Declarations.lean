import FleetControl.Proofs.Region.Operations

/-!
# Declared regions

A list of declarations whose texts are paths is applied to the end (`Tree.Sound.exists_apply`). The
regions of the tree that it leaves are those that were there and those on the way to a declared path,
and a region has the settings that its declarations, in their order, lay over those it had
(`Tree.Declared`). So of a list without repeated paths every declared region has exactly the settings
of its declaration, and of every list a second application changes nothing
(`Tree.Declared.apply_again`).
-/

namespace FleetControl.Region

/-! ### Settings laid over settings -/

namespace Declaration

/-- The text of the declaration is read as the path. -/
def declares (d : Declaration) (p : Path) : Bool := (Path.parse d.path).toOption == some p

theorem declares_iff {d : Declaration} {p : Path} :
    d.declares p = true ↔ Path.parse d.path = .ok p := by
  rw [declares, beq_iff_eq]
  cases Path.parse d.path <;> simp [Except.toOption]

/-- The settings that declarations of one region lay over those it has, one after the other. -/
def layers (ds : List Declaration) (s : Settings) : Settings := ds.foldl (fun s d => d.over s) s

theorem layers_append (ds ds' : List Declaration) (s : Settings) :
    layers (ds ++ ds') s = layers ds' (layers ds s) :=
  List.foldl_append

theorem properties_layers (ds : List Declaration) (s : Settings) :
    (layers ds s).properties =
      s.properties.overlay (ds.flatMap fun d => d.settings.properties.toList) := by
  induction ds generalizing s with
  | nil => rfl
  | cons d ds ih =>
    rw [List.flatMap_cons, SortedMap.overlay_append]
    exact ih (d.over s)

/-- Layers that are there already change nothing: the flags are those of the last, and the
properties are laid over themselves. -/
theorem layers_layers (ds : List Declaration) (s : Settings) :
    layers ds (layers ds s) = layers ds s := by
  have hproperties : (layers ds (layers ds s)).properties = (layers ds s).properties := by
    rw [properties_layers, properties_layers, SortedMap.overlay_overlay]
  rcases List.eq_nil_or_concat ds with rfl | ⟨init, d, rfl⟩
  · rfl
  · have hlast (s : Settings) : layers (init.concat d) s =
        { d.settings with properties := (layers (init.concat d) s).properties } := by
      rw [List.concat_eq_append, layers_append]
      rfl
    rw [hlast (layers _ s), hproperties, ← hlast]

/-- Over the default settings a declaration says all. -/
theorem over_default (d : Declaration) : d.over {} = d.settings := by
  show { d.settings with properties := SortedMap.ofList d.settings.properties.toList } = d.settings
  rw [SortedMap.ofList_toList]

/-- Of declarations with texts of their own at most one declares a region. -/
theorem filter_declares {ds : List Declaration} (hnodup : (ds.map (·.path)).Nodup)
    {d : Declaration} (hd : d ∈ ds) {p : Path} (hp : Path.parse d.path = .ok p) :
    ds.filter (·.declares p) = [d] := by
  have hinj := List.inj_on_of_nodup_map hnodup
  refine List.perm_singleton.1 ((List.perm_ext_iff_of_nodup
    ((List.Nodup.of_map _ hnodup).filter _) (List.nodup_singleton d)).2 fun d' => ?_)
  rw [List.mem_filter, declares_iff, List.mem_singleton]
  constructor
  · rintro ⟨hd', hp'⟩
    exact hinj hd' hd (by rw [← Path.toString_of_parse hp', Path.toString_of_parse hp])
  · rintro rfl
    exact ⟨hd, hp⟩

end Declaration

namespace Tree

open Declaration (layers)

variable {t t' t'' : Tree} {p q : Path} {id : RegionId} {d : Declaration} {ds ds' : List Declaration}

/-! ### Settings at a path -/

/-- The settings of the region at a path; the default where there is none. -/
def settingsOf (t : Tree) (p : Path) : Settings := ((t.resolve p).bind t.settings?).getD {}

theorem Sound.settings?_eq (h : t.Sound) (hp : t.path? id = some p) :
    t.settings? id = some (t.settingsOf p) := by
  obtain ⟨entry, hget⟩ := exists_get?_of_lt_size (lt_size_of_path? hp)
  rw [settingsOf, h.resolve_eq_some_iff.2 hp, Option.bind_some, settings?, hget, Option.map_some,
    Option.getD_some]

theorem settingsOf_of_resolve (hp : t.resolve p = none) : t.settingsOf p = {} := by
  rw [settingsOf, hp, Option.bind_none, Option.getD_none]

/-- Regions that are created have default settings, so the settings at every path are the same. -/
theorem Creates.settingsOf (ht : t.Sound) (h : Creates t p t' id) (q : Path) :
    t'.settingsOf q = t.settingsOf q := by
  cases hq : t'.resolve q with
  | none =>
    have hnone : t.resolve q = none := Option.not_isSome_iff_eq_none.1 fun hsome =>
      absurd ((h.exact q).2 (.inl hsome)) (by rw [hq]; exact Bool.false_ne_true)
    rw [settingsOf_of_resolve hq, settingsOf_of_resolve hnone]
  | some c =>
    have hpath := h.sound.resolve_eq_some_iff.1 hq
    have hcreation := h.creation ht
    rw [Tree.settingsOf, hq, Option.bind_some]
    rcases Nat.lt_or_ge c t.size with hlt | hge
    · obtain ⟨hkept, -, hsettings⟩ := hcreation.kept c hlt
      rw [hsettings, ht.settings?_eq (hkept ▸ hpath), Option.getD_some]
    · obtain ⟨-, hnone, hsettings⟩ := hcreation.fresh c q hge hpath
      rw [hsettings, Option.getD_some, settingsOf_of_resolve hnone]

theorem Resets.resolve (h : Resets t t') (p : Path) : t'.resolve p = t.resolve p := by
  have hchild : t'.child? = t.child? := by
    funext id name
    exact h.child?
  rw [Tree.resolve, Tree.resolve, hchild]

theorem Sound.settingsOf_updateSettings (h : t.Sound) (hp : t.resolve p = some id)
    {f : Settings → Settings} (ht' : t.updateSettings id f = .ok t') (q : Path) :
    t'.settingsOf q = if q = p then f (t.settingsOf q) else t.settingsOf q := by
  have hresolve := (resets_of_updateSettings ht').resolve q
  obtain ⟨entry, hget⟩ := exists_get?_of_lt_size (h.lt_size_of_resolve hp)
  simp only [updateSettings, hget, Except.ok.injEq] at ht'
  subst ht'
  rw [settingsOf, settingsOf, hresolve]
  split_ifs with hq
  · rw [hq, hp]
    simp [settings?, get?_set, hget]
  · cases hc : t.resolve q with
    | none => rfl
    | some c =>
      have hne : c ≠ id := by
        rintro rfl
        have hpath := h.resolve_eq_some_iff.1 hc
        rw [h.resolve_eq_some_iff.1 hp, Option.some.injEq] at hpath
        exact hq hpath.symm
      simp [settings?, get?_set, hne]

/-! ### What declarations make of a tree -/

/-- The tree `t'` is what the declarations make of the tree `t`. -/
structure Declared (t : Tree) (ds : List Declaration) (t' : Tree) : Prop where
  sound : t'.Sound
  /-- The regions are those that were there and those on the way to a declared path. -/
  exact : ∀ q, (t'.resolve q).isSome ↔
    (t.resolve q).isSome ∨ ∃ d ∈ ds, ∃ p, Path.parse d.path = .ok p ∧ q.contains p = true
  /-- Every region has the settings that its declarations lay over those it had. -/
  settings : ∀ q, t'.settingsOf q = layers (ds.filter (·.declares q)) (t.settingsOf q)

theorem Sound.declared_nil (h : t.Sound) : Declared t [] t where
  sound := h
  exact q := by simp
  settings _ := rfl

theorem Declared.trans (h : Declared t ds t') (h' : Declared t' ds' t'') :
    Declared t (ds ++ ds') t'' where
  sound := h'.sound
  exact q := by
    rw [h'.exact, h.exact, or_assoc]
    simp only [List.mem_append, or_and_right, exists_or]
  settings q := by
    rw [h'.settings, h.settings, List.filter_append, Declaration.layers_append]

theorem Sound.exists_declare (h : t.Sound) (hp : Path.parse d.path = .ok p) :
    ∃ t', t.declare d = .ok t' ∧ Declared t [d] t' := by
  have hcreates := creates_create h p
  obtain ⟨entry, hget⟩ := exists_get?_of_lt_size (hcreates.sound.lt_size_of_resolve hcreates.found)
  obtain ⟨t', ht'⟩ : ∃ t', (t.create p).1.updateSettings (t.create p).2 d.over = .ok t' :=
    ⟨_, by rw [updateSettings, hget]⟩
  have hdeclare : t.declare d = .ok t' := by
    simp only [declare, createText_of_parse hp, bind, Except.bind]
    exact ht'
  refine ⟨t', hdeclare, (h.successor_declare hdeclare).sound, fun q => ?_, fun q => ?_⟩
  · rw [(resets_of_updateSettings ht').resolve, hcreates.exact]
    simp [hp]
  · rw [hcreates.sound.settingsOf_updateSettings hcreates.found ht', hcreates.settingsOf h]
    by_cases hq : q = p
    · have hone : [d].filter (·.declares q) = [d] := by
        simp [Declaration.declares_iff.2 (hq ▸ hp)]
      rw [if_pos hq, hone]
      rfl
    · have hnone : [d].filter (·.declares q) = [] := by
        simpa using fun hdeclares =>
          hq (Except.ok.inj ((Declaration.declares_iff.1 hdeclares).symm.trans hp))
      rw [if_neg hq, hnone]
      rfl

/-- **Declarations of paths are all applied.** -/
theorem Sound.exists_apply (h : t.Sound) (hds : ∀ d ∈ ds, ∃ p, Path.parse d.path = .ok p) :
    ∃ t', t.apply ds = (t', .ok ()) ∧ Declared t ds t' := by
  induction ds generalizing t with
  | nil => exact ⟨t, rfl, h.declared_nil⟩
  | cons d ds ih =>
    obtain ⟨p, hp⟩ := hds d List.mem_cons_self
    obtain ⟨t', hdeclare, hdeclared⟩ := h.exists_declare hp
    obtain ⟨t'', happly, hrest⟩ := ih hdeclared.sound fun d' hd' =>
      hds d' (List.mem_cons_of_mem _ hd')
    exact ⟨t'', by rw [Tree.apply, hdeclare]; exact happly, hdeclared.trans hrest⟩

/-! ### Once more -/

theorem Resets.refl (t : Tree) : Resets t t :=
  ⟨fun _ s => s, fun id => by cases t.get? id <;> rfl⟩

theorem Resets.trans (h : Resets t t') (h' : Resets t' t'') : Resets t t'' := by
  obtain ⟨f, hf⟩ := h
  obtain ⟨f', hf'⟩ := h'
  refine ⟨fun id s => f' id (f id s), fun id => ?_⟩
  rw [hf', hf, Option.map_map]
  rfl

/-- Declarations of regions that are there change settings alone. -/
theorem resets_of_apply (hds : ∀ d ∈ ds, ∃ p, Path.parse d.path = .ok p ∧ (t.resolve p).isSome) :
    Resets t (t.apply ds).1 := by
  induction ds generalizing t with
  | nil => exact .refl t
  | cons d ds ih =>
    obtain ⟨p, hp, hsome⟩ := hds d List.mem_cons_self
    obtain ⟨id, hid⟩ := Option.isSome_iff_exists.1 hsome
    unfold Tree.apply
    cases hdeclare : t.declare d with
    | error e => exact .refl t
    | ok t' =>
      simp only [declare, createText_of_parse hp, create_of_resolve hid, bind, Except.bind]
        at hdeclare
      have hreset := resets_of_updateSettings hdeclare
      refine hreset.trans (ih fun d' hd' => ?_)
      obtain ⟨p', hp', hsome'⟩ := hds d' (List.mem_cons_of_mem _ hd')
      exact ⟨p', hp', (hreset.resolve p').symm ▸ hsome'⟩

/-- Trees that differ at most in settings, and in these not, are one. -/
theorem Resets.eq (h : Resets t t') (ht : t.Sound) (hs : ∀ q, t'.settingsOf q = t.settingsOf q) :
    t' = t := by
  have hsound := h.sound ht
  have hget : ∀ id, t'.get? id = t.get? id := by
    intro id
    have hgrows := h.grows
    obtain ⟨f, hf⟩ := h
    cases hget : t.get? id with
    | none => rw [hf, hget, Option.map_none]
    | some entry =>
      obtain ⟨p, hp, -⟩ := ht.exists_path (lt_size_of_get? hget)
      have hsettings := hsound.settings?_eq (hgrows.path? ht hsound hp)
      rw [hs, ← ht.settings?_eq hp, settings?, settings?, hf, hget] at hsettings
      rw [hf, hget]
      simp only [Option.map_some, Option.some.injEq] at hsettings ⊢
      rw [hsettings]
  cases t
  cases t'
  exact congrArg Tree.mk (List.ext_getElem? hget)

/-- **Declarations that were applied change nothing when they are applied again.** -/
theorem Declared.apply_again (h : Declared t ds t')
    (hds : ∀ d ∈ ds, ∃ p, Path.parse d.path = .ok p) : t'.apply ds = (t', .ok ()) := by
  obtain ⟨t'', happly, hagain⟩ := h.sound.exists_apply hds
  have hreset : Resets t' (t'.apply ds).1 := resets_of_apply fun d hd => by
    obtain ⟨p, hp⟩ := hds d hd
    exact ⟨p, hp, (h.exact p).2 (.inr ⟨d, hd, p, hp, Path.contains_refl p⟩)⟩
  rw [happly] at hreset
  have heq : t'' = t' := hreset.eq h.sound fun q => by
    rw [hagain.settings, h.settings, Declaration.layers_layers]
  rw [happly, heq]

/-! ### The tree of a configuration -/

theorem isSome_resolve_new : (new.resolve q).isSome ↔ q = Path.root := by
  constructor
  · intro hsome
    obtain ⟨id, hid⟩ := Option.isSome_iff_exists.1 hsome
    have hroot : id = root := Nat.lt_one_iff.1 (sound_new.lt_size_of_resolve hid)
    have hpath := sound_new.resolve_eq_some_iff.1 hid
    rw [hroot, sound_new.path?_root, Option.some.injEq] at hpath
    exact hpath.symm
  · rintro rfl
    rfl

theorem settingsOf_new (q : Path) : new.settingsOf q = {} := by
  cases hq : new.resolve q with
  | none => exact settingsOf_of_resolve hq
  | some id =>
    have hroot : id = root := Nat.lt_one_iff.1 (sound_new.lt_size_of_resolve hq)
    rw [settingsOf, hq, hroot]
    rfl

theorem exists_ofDeclarations (hds : ∀ d ∈ ds, ∃ p, Path.parse d.path = .ok p) :
    ∃ t, ofDeclarations ds = .ok t ∧ Declared new ds t := by
  obtain ⟨t, happly, hdeclared⟩ := sound_new.exists_apply hds
  exact ⟨t, by rw [ofDeclarations, happly], hdeclared⟩

/-- Declarations are carried out to the end only if all have readable paths. -/
theorem parse_of_apply (h : t.apply ds = (t', .ok ())) :
    ∀ d ∈ ds, ∃ p, Path.parse d.path = .ok p := by
  induction ds generalizing t with
  | nil => exact fun d hd => absurd hd List.not_mem_nil
  | cons d ds ih =>
    unfold Tree.apply at h
    cases hp : Path.parse d.path with
    | error e =>
      have hdeclare : t.declare d = .error e := by
        simp [declare, createText_of_parse_error hp, bind, Except.bind]
      rw [hdeclare] at h
      cases h
    | ok p =>
      cases hdeclare : t.declare d with
      | error e =>
        rw [hdeclare] at h
        cases h
      | ok t₁ =>
        rw [hdeclare] at h
        exact List.forall_mem_cons.2 ⟨⟨p, hp⟩, ih h⟩

theorem parse_of_ofDeclarations (h : ofDeclarations ds = .ok t) :
    ∀ d ∈ ds, ∃ p, Path.parse d.path = .ok p := by
  unfold ofDeclarations at h
  split at h
  · next t' happly => exact parse_of_apply happly
  · cases h

/-- A declared region has the settings of its declaration. -/
theorem Declared.settingsOf_declared (h : Declared new ds t) (hnodup : (ds.map (·.path)).Nodup)
    (hd : d ∈ ds) (hp : Path.parse d.path = .ok p) : t.settingsOf p = d.settings := by
  rw [h.settings, settingsOf_new, Declaration.filter_declares hnodup hd hp]
  exact d.over_default

/-- A region that is not declared has the default settings. -/
theorem Declared.settingsOf_undeclared (h : Declared new ds t)
    (hp : ∀ d ∈ ds, Path.parse d.path ≠ .ok p) : t.settingsOf p = {} := by
  have hnone : ds.filter (·.declares p) = [] := by
    rw [List.filter_eq_nil_iff]
    exact fun d hd hdeclares => hp d hd (Declaration.declares_iff.1 hdeclares)
  rw [h.settings, hnone, settingsOf_new]
  rfl

end Tree

end FleetControl.Region
