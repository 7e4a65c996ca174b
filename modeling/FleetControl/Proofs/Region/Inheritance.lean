import FleetControl.Proofs.Region.Renumbering
import FleetControl.Proofs.Region.Traversal

/-!
# Inherited properties

The properties that count for a region are its own, those of the region around it if it inherits,
and so on to the first region that does not inherit. The regions on this way are its heritage
(`Tree.heritage`); on a collision the nearest counts (`Tree.Inherited`).

So the properties of a region are its own laid over those of its parent, and no region off the
heritage has a part in them, whatever is set there (`Tree.properties_inherited`).
-/

namespace FleetControl.Region

/-- A list up to its first element that fails a test, that one included. -/
def upTo {α : Type} (f : α → Bool) : List α → List α
  | [] => []
  | x :: rest => x :: if f x then upTo f rest else []

section UpTo

variable {α : Type} {f g : α → Bool} {xs : List α}

theorem upTo_congr (h : ∀ x ∈ upTo f xs, g x = f x) : upTo g xs = upTo f xs := by
  induction xs with
  | nil => rfl
  | cons x rest ih =>
    have hx : g x = f x := h x List.mem_cons_self
    rw [upTo] at h
    rw [upTo, upTo, hx]
    split
    · next hf =>
      rw [if_pos hf] at h
      rw [ih fun y hy => h y (List.mem_cons_of_mem _ hy)]
    · rfl

/-- The settings that count are those of the elements up to the first whose settings do not
inherit. -/
theorem chain_filterMap {look : α → Option Settings}
    (hf : ∀ x, f x = (look x).any (·.inheritProperties)) (hall : ∀ x ∈ xs, (look x).isSome) :
    Settings.chain (xs.filterMap look) = (upTo f xs).filterMap look := by
  induction xs with
  | nil => rfl
  | cons x rest ih =>
    obtain ⟨s, hs⟩ := Option.isSome_iff_exists.1 (hall x List.mem_cons_self)
    have hfx : f x = s.inheritProperties := by rw [hf, hs]; rfl
    rw [List.filterMap_cons_some hs, Settings.chain, upTo, List.filterMap_cons_some hs, hfx,
      ih fun y hy => hall y (List.mem_cons_of_mem _ hy)]
    split <;> rfl

end UpTo

/-- The properties of settings laid over one another, the first of them on top. -/
def Settings.laid (ss : List Settings) : SortedMap String String :=
  ss.reverse.foldl (fun acc s => acc.overlay s.properties.toList) .empty

/-- The first settings that have a key count for it. -/
theorem Settings.get?_laid (ss : List Settings) (k : String) :
    (Settings.laid ss).get? k = ss.findSome? (·.properties.get? k) := by
  rw [Settings.laid, List.foldl_reverse]
  induction ss with
  | nil => rfl
  | cons s rest ih =>
    rw [List.foldr_cons, SortedMap.get?_overlay, SortedMap.ofList_toList, ih, List.findSome?_cons]
    cases s.properties.get? k <;> rfl

namespace Tree

variable {t t' : Tree} {id c parent : RegionId} {k : String}

/-- Whether the properties of the region around a region count in it too. -/
def inherits (t : Tree) (id : RegionId) : Bool := (t.settings? id).any (·.inheritProperties)

/-- The value that a region itself has for a key. -/
def own? (t : Tree) (id : RegionId) (k : String) : Option String :=
  (t.settings? id).bind (·.properties.get? k)

/-- A region and the regions around it, from the inside out, up to the first that does not inherit,
that one included. -/
def heritage (t : Tree) (id : RegionId) : List RegionId := upTo t.inherits (t.lineage id)

/-- The properties that count for a region, in terms of those that regions have themselves. -/
structure Inherited (t : Tree) (id : RegionId) (props : SortedMap String String) : Prop where
  /-- The heritage begins with the region. -/
  begins : (t.heritage id).head? = some id
  /-- From each region that inherits it goes on with the region around it. -/
  climbs : (t.heritage id).IsChain fun c d => t.inherits c = true ∧ t.parent? c = some d
  /-- It ends with a region that does not inherit or with the root. -/
  ends : ∀ c ∈ (t.heritage id).getLast?, t.inherits c = false ∨ c = root
  /-- A key has a value exactly if some region of the heritage has it. -/
  contains : ∀ k, props.contains k = true ↔ ∃ c ∈ t.heritage id, (t.own? c k).isSome
  /-- It is the value of the nearest region of the heritage that has the key. -/
  nearest : ∀ k v, props.get? k = some v ↔ ∃ below c above,
    t.heritage id = below ++ c :: above ∧ t.own? c k = some v ∧ ∀ d ∈ below, t.own? d k = none
  /-- The region's own properties lie over those of the region around it, if it inherits and there
  is such a region, and are all that counts otherwise. -/
  laid : ∃ s, t.settings? id = some s ∧
    match t.parent? id with
    | some parent => if s.inheritProperties then ∃ above, t.effectiveProperties parent = .ok above ∧
        props = above.overlay s.properties.toList
      else props = s.properties
    | none => props = s.properties

/-! ### The heritage -/

theorem own?_of_settings? {s : Settings} (hs : t.settings? id = some s) :
    t.own? id k = s.properties.get? k := by
  rw [own?, hs, Option.bind_some]

theorem inherits_of_settings? {s : Settings} (hs : t.settings? id = some s) :
    t.inherits id = s.inheritProperties := by
  rw [inherits, hs, Option.any_some]

theorem settings?_isSome_iff : (t.settings? id).isSome ↔ id < t.size := by
  rw [settings?, Option.isSome_map, get?_isSome_iff]

namespace Sound

variable (h : t.Sound)
include h

theorem parent_lt (hparent : t.parent? id = some parent) : parent < id := by
  obtain ⟨entry, hget, hp⟩ := Option.bind_eq_some_iff.1 hparent
  have hne : id ≠ root := by
    rintro rfl
    obtain ⟨entry', hget', hnone⟩ := h.rooted
    obtain rfl : entry = entry' := Option.some.inj (hget.symm.trans hget')
    rw [hnone] at hp
    cases hp
  obtain ⟨parent', hlt, hp', -, -⟩ := h.held hget hne
  obtain rfl : parent = parent' := Option.some.inj (hp.symm.trans hp')
  exact hlt

theorem eq_root_of_parent?_eq_none (hid : id < t.size) (hnone : t.parent? id = none) :
    id = root := by
  obtain ⟨entry, hget⟩ := exists_get?_of_lt_size hid
  by_contra hne
  obtain ⟨parent, -, hparent, -, -⟩ := h.held hget hne
  rw [parent?, hget, Option.bind_some, hparent] at hnone
  cases hnone

/-- **The heritage of a region** is the region and, if it inherits, the heritage of the region
around it. -/
theorem heritage_eq (hid : id < t.size) : t.heritage id =
    id :: if t.inherits id then (t.parent? id).elim [] t.heritage else [] := by
  rw [heritage, lineage_eq hid, upTo, h.ancestors_eq]
  cases hparent : t.parent? id with
  | none => rfl
  | some parent =>
    have hlt := (h.parent_lt hparent).trans hid
    rw [Option.elim_some, Option.elim_some, heritage, lineage_eq hlt]

theorem heritage_of_inherits (hid : id < t.size) (hinherits : t.inherits id = true)
    (hparent : t.parent? id = some parent) : t.heritage id = id :: t.heritage parent := by
  rw [h.heritage_eq hid, if_pos hinherits, hparent, Option.elim_some]

theorem heritage_of_not (hid : id < t.size)
    (hends : t.inherits id = false ∨ t.parent? id = none) : t.heritage id = [id] := by
  rw [h.heritage_eq hid]
  rcases hends with hends | hends <;> simp [hends]

/-- What is shown of a heritage goes up from parent to parent. -/
theorem heritage_induction {motive : (id : RegionId) → id < t.size → Prop}
    (ends : ∀ id hid, t.inherits id = false ∨ t.parent? id = none → t.heritage id = [id] →
      motive id hid)
    (climbs : ∀ id hid parent hparent, t.inherits id = true → t.parent? id = some parent →
      t.heritage id = id :: t.heritage parent → motive parent hparent → motive id hid)
    (id : RegionId) (hid : id < t.size) : motive id hid := by
  induction id using Nat.strong_induction_on with
  | h id ih =>
    cases hinherits : t.inherits id with
    | false => exact ends id hid (.inl hinherits) (h.heritage_of_not hid (.inl hinherits))
    | true =>
      cases hparent : t.parent? id with
      | none => exact ends id hid (.inr hparent) (h.heritage_of_not hid (.inr hparent))
      | some parent =>
        have hlt := h.parent_lt hparent
        exact climbs id hid parent (hlt.trans hid) hinherits hparent
          (h.heritage_of_inherits hid hinherits hparent) (ih parent hlt (hlt.trans hid))

theorem head?_heritage (hid : id < t.size) : (t.heritage id).head? = some id := by
  rw [h.heritage_eq hid, List.head?_cons]

theorem isChain_heritage (hid : id < t.size) :
    (t.heritage id).IsChain fun c d => t.inherits c = true ∧ t.parent? c = some d := by
  induction id, hid using h.heritage_induction with
  | ends id hid hends heq =>
    rw [heq]
    exact .singleton _
  | climbs id hid parent hlt hinherits hparent heq ih =>
    rw [heq]
    rw [h.heritage_eq hlt] at ih ⊢
    exact List.isChain_cons_cons.2 ⟨⟨hinherits, hparent⟩, ih⟩

theorem getLast?_heritage (hid : id < t.size) :
    ∀ c ∈ (t.heritage id).getLast?, t.inherits c = false ∨ c = root := by
  induction id, hid using h.heritage_induction with
  | ends id hid hends heq =>
    rw [heq, List.getLast?_singleton]
    rintro c ⟨⟩
    exact hends.imp_right (h.eq_root_of_parent?_eq_none hid)
  | climbs id hid parent hlt hinherits hparent heq ih =>
    have hne : t.heritage parent ≠ [] := by
      rw [h.heritage_eq hlt]
      exact List.cons_ne_nil _ _
    rwa [heq, List.getLast?_cons_of_ne_nil hne]

theorem lt_size_of_mem_lineage (hid : id < t.size) (hc : c ∈ t.lineage id) : c < t.size := by
  obtain ⟨p, hp, -⟩ := h.exists_path hid
  have hmem := List.mem_map_of_mem (f := t.path?) hc
  rw [h.map_path?_lineage hp] at hmem
  obtain ⟨q, -, hq⟩ := List.mem_map.1 hmem
  exact lt_size_of_path? hq.symm

/-! ### What counts for a region -/

/-- The properties of a region are those that its heritage has, laid over one another. -/
theorem effectiveProperties_eq (hid : id < t.size) : t.effectiveProperties id =
    .ok (Settings.laid ((t.heritage id).filterMap t.settings?)) := by
  obtain ⟨entry, hget⟩ := exists_get?_of_lt_size hid
  have hall : ∀ c ∈ t.lineage id, (t.settings? c).isSome := fun c hc =>
    settings?_isSome_iff.2 (h.lt_size_of_mem_lineage hid hc)
  simp only [effectiveProperties, hget, inheritance_eq_chain, heritage]
  rw [← chain_filterMap (f := t.inherits) (fun c => rfl) hall, lineage, Settings.laid]

/-- For a key the first region of the heritage that has it counts. -/
theorem exists_effectiveProperties (hid : id < t.size) :
    ∃ props, t.effectiveProperties id = .ok props ∧
      ∀ k, props.get? k = (t.heritage id).findSome? (t.own? · k) := by
  refine ⟨_, h.effectiveProperties_eq hid, fun k => ?_⟩
  rw [Settings.get?_laid]
  induction t.heritage id with
  | nil => rfl
  | cons c rest ih =>
    rw [List.findSome?_cons, own?]
    cases hs : t.settings? c with
    | none => rw [List.filterMap_cons_none hs, ih]; rfl
    | some s => rw [List.filterMap_cons_some hs, List.findSome?_cons, ih]; rfl

theorem inherited (hid : id < t.size) :
    ∃ props, t.effectiveProperties id = .ok props ∧ t.Inherited id props := by
  obtain ⟨props, hprops, hget⟩ := h.exists_effectiveProperties hid
  obtain ⟨s, hs⟩ := Option.isSome_iff_exists.1 (settings?_isSome_iff.2 hid)
  have hown (hends : t.inherits id = false ∨ t.parent? id = none) : props = s.properties := by
    refine SortedMap.ext_get? fun k => ?_
    rw [hget, h.heritage_of_not hid hends, List.findSome?_singleton, own?_of_settings? hs]
  refine ⟨props, hprops, h.head?_heritage hid, h.isChain_heritage hid, h.getLast?_heritage hid,
    fun k => ?_, fun k v => ?_, s, hs, ?_⟩
  · rw [SortedMap.contains, hget, List.findSome?_isSome_iff]
  · rw [hget, List.findSome?_eq_some_iff]
  · cases hparent : t.parent? id with
    | none => exact hown (.inr hparent)
    | some parent =>
      have hinherits := inherits_of_settings? hs
      dsimp only
      split
      · next hyes =>
        obtain ⟨above, habove, hget'⟩ :=
          h.exists_effectiveProperties ((h.parent_lt hparent).trans hid)
        refine ⟨above, habove, SortedMap.ext_get? fun k => ?_⟩
        rw [hget, h.heritage_of_inherits hid (hinherits.trans hyes) hparent, List.findSome?_cons,
          SortedMap.get?_overlay, SortedMap.ofList_toList, hget', own?_of_settings? hs]
        cases s.properties.get? k <;> rfl
      · next hno => exact hown (.inl (hinherits.trans (Bool.not_eq_true _ ▸ hno)))

/-! ### What other regions have -/

/-- The way to the root stays as it is while the tree grows. -/
theorem lineage_grown (hgrows : Grows t t') (hid : id < t.size) : t'.lineage id = t.lineage id := by
  have hclimb : ∀ fuel, ∀ id < t.size, t'.climb fuel id = t.climb fuel id := by
    intro fuel
    induction fuel with
    | zero => exact fun _ _ => rfl
    | succ fuel ih =>
      intro id hid
      obtain ⟨entry, hget⟩ := exists_get?_of_lt_size hid
      obtain ⟨entry', hget', -, hparent'⟩ := hgrows.entry hget
      simp only [climb, hget, hget', hparent']
      cases hparent : entry.parent with
      | none => rfl
      | some parent =>
        have hparent? : t.parent? id = some parent := by rw [parent?, hget, Option.bind_some, hparent]
        rw [Option.elim_some, Option.elim_some, ih parent ((h.parent_lt hparent?).trans hid)]
  exact hclimb _ id hid

/-- **The properties of a region depend on the settings of its heritage alone.** -/
theorem undisturbed (hnext : Successor t t') (hid : id < t.size)
    (hsame : ∀ c ∈ t.heritage id, t'.settings? c = t.settings? c) :
    t'.heritage id = t.heritage id ∧ t'.effectiveProperties id = t.effectiveProperties id := by
  have hheritage : t'.heritage id = t.heritage id := by
    rw [heritage, heritage, h.lineage_grown hnext.grows hid]
    exact upTo_congr fun c hc => by rw [inherits, inherits, hsame c hc]
  refine ⟨hheritage, ?_⟩
  rw [hnext.sound.effectiveProperties_eq (hid.trans_le hnext.grows.size_le),
    h.effectiveProperties_eq hid, hheritage, List.filterMap_congr hsame]

end Sound

/-! ### Changing settings -/

theorem get?_perform_configure (t : Tree) (id c : RegionId) (change : Settings → Settings) :
    (t.perform (.configure c change)).get? id = (t.get? id).map fun entry =>
      if id = c then { entry with settings := change entry.settings } else entry := by
  cases hget : t.get? c with
  | none =>
    have hstays : t.perform (.configure c change) = t := by simp only [perform, updateSettings, hget]
    rw [hstays]
    by_cases heq : id = c
    · rw [heq, hget, Option.map_none]
    · simp [heq]
  | some entry =>
    have hset : t.perform (.configure c change) =
        t.set c { entry with settings := change entry.settings } := by
      simp only [perform, updateSettings, hget]
    rw [hset, get?_set]
    by_cases heq : id = c
    · simp [heq, hget]
    · simp [heq]

theorem settings?_perform_configure {change : Settings → Settings} (hne : id ≠ c) :
    (t.perform (.configure c change)).settings? id = t.settings? id := by
  simp [settings?, get?_perform_configure, hne]

theorem heritage_eq_nil (hget : t.get? id = none) : t.heritage id = [] := by
  simp [heritage, lineage, climb, hget, upTo]

theorem effectiveProperties_of_get?_eq_none (hget : t.get? id = none) :
    t.effectiveProperties id = .error (.notFound ("#" ++ Nat.repr id)) := by
  rw [effectiveProperties, hget]

/-- The properties that count for the regions of a tree. -/
structure Inheriting (t : Tree) : Prop where
  /-- Every region has properties, inherited as they should be. -/
  known : ∀ id < t.size, ∃ props, t.effectiveProperties id = .ok props ∧ t.Inherited id props
  /-- There is nothing else that has properties. -/
  unknown : ∀ id, t.size ≤ id →
    t.effectiveProperties id = .error (.notFound ("#" ++ Nat.repr id))
  /-- What is set on a region does not count for a region that it is no heritage of. -/
  undisturbed : ∀ id c change, c ∉ t.heritage id →
    (t.perform (.configure c change)).heritage id = t.heritage id ∧
      (t.perform (.configure c change)).effectiveProperties id = t.effectiveProperties id
  /-- Whatever is done to the tree, the properties of a region stay as long as the settings on its
  heritage do. -/
  lasting : ∀ ops, ∀ id < t.size,
    (∀ c ∈ t.heritage id, (t.performAll ops).settings? c = t.settings? c) →
    (t.performAll ops).heritage id = t.heritage id ∧
      (t.performAll ops).effectiveProperties id = t.effectiveProperties id

/-- **Properties are inherited up to the first region that does not inherit**, the nearest value
first, in every tree that operations build; what is set on other regions does not count. -/
theorem properties_inherited (ops : List Op) : Inheriting (new.performAll ops) := by
  have h : (new.performAll ops).Sound := sound_performAll ops
  refine ⟨fun id => h.inherited, fun id hid => effectiveProperties_of_get?_eq_none
    (get?_eq_none hid), fun id c change hc => ?_,
    fun ops' id hid => h.undisturbed (h.successor_performAll ops') hid⟩
  rcases Nat.lt_or_ge id (new.performAll ops).size with hid | hid
  · exact h.undisturbed (h.successor_perform _) hid fun d hd =>
      settings?_perform_configure fun heq => hc (heq ▸ hd)
  · -- what is no region does not become one
    have hget := get?_eq_none hid
    have hget' := get?_perform_configure (new.performAll ops) id c change
    rw [hget, Option.map_none] at hget'
    rw [heritage_eq_nil hget, heritage_eq_nil hget', effectiveProperties_of_get?_eq_none hget,
      effectiveProperties_of_get?_eq_none hget']
    exact ⟨rfl, rfl⟩

/-- The region `a.b.c` inherits from `a.b`, which does not inherit from `a`. -/
example :
    let t := new.performAll [.create "a.b.c",
      .configure 1 fun s => { s with properties := .ofList [("tier", "gold"), ("zone", "1")] },
      .configure 2 fun s =>
        { s with properties := .ofList [("tier", "silver")], inheritProperties := false }]
    t.heritage 3 = [3, 2] ∧
      (t.effectiveProperties 3).toOption = some (.ofList [("tier", "silver")]) := by
  decide +kernel

end Tree

end FleetControl.Region
