import FleetControl.Api.Route
import FleetControl.Proofs.Control.Placeable
import FleetControl.Proofs.Region.View
import FleetControl.Proofs.Text.Percent
import Mathlib.Data.List.TakeWhile

/-!
# Regions are addressable

An operator asks for all regions or for one of them. The address of a region ends in its path,
percent-encoded; it is taken apart into its segments (`Api.segments_regionUri`), and the last one
is read back as the path (`Api.route_regionUri`).

In every state of every run the tree is sound, so the listing shows each region once, and the
address of a region answers what the listing shows of it (`Api.regions_addressable`). One name is
reserved: `_` stands for the root, so a region of that name directly below the root is listed but
cannot be asked for (`Api.reserved_region_hidden`).
-/

namespace FleetControl.Api

open Control Region Text

/-- The address of a region that is named by a text. -/
def regionUri (text : String) : String :=
  "/api/v1/regions/" ++ String.ofList (Percent.encode text)

/-- The request is answered at once, from the state alone. -/
def Answers (r : HttpRequest) (s : State) (response : Response) : Prop :=
  ∃ answer, route r = .query answer ∧ answer s = response

theorem beforeQuery_eq {cs : List Char} (h : ∀ c ∈ cs, c ≠ '?' ∧ c ≠ '#') :
    beforeQuery cs = cs := by
  refine List.takeWhile_eq_self_iff.2 fun c hc => ?_
  rw [Bool.and_eq_true, bne_iff_ne, bne_iff_ne]
  exact h c hc

/-- The segments of an address that is a path, without query and fragment. -/
theorem segments_pathOf {uri : String} {parts : List (List Char)}
    (huri : uri.toList = '/' :: ['/'].intercalate parts)
    (hquery : ∀ c ∈ uri.toList, c ≠ '?' ∧ c ≠ '#') (hparts : parts ≠ [])
    (hslash : ∀ part ∈ parts, '/' ∉ part) : (pathOf uri).bind segments = some parts := by
  rw [huri] at hquery
  have hpath : pathOf uri = some ('/' :: ['/'].intercalate parts) := by
    rw [pathOf, huri]
    exact congrArg some (beforeQuery_eq hquery)
  rw [hpath, Option.bind_some, segments, List.splitOn_intercalate _ hslash hparts]

theorem plain_encode {text : String} {c : Char} (h : c ∈ Percent.encode text) :
    c ≠ '/' ∧ c ≠ '?' ∧ c ≠ '#' := by
  have hplain := Percent.isPlain_of_mem_encode h
  simp only [Percent.isPlain, Bool.and_eq_true, bne_iff_ne] at hplain
  exact ⟨hplain.1.1, hplain.1.2, hplain.2⟩

theorem toList_regionUri (text : String) :
    (regionUri text).toList = "/api/v1/regions/".toList ++ Percent.encode text :=
  String.toList_append.trans (congrArg ("/api/v1/regions/".toList ++ ·) String.toList_ofList)

theorem segments_regionUri (text : String) : (pathOf (regionUri text)).bind segments =
    some ["api".toList, "v1".toList, "regions".toList, Percent.encode text] := by
  have hroot : ∀ c ∈ "/api/v1/regions/".toList, c ≠ '?' ∧ c ≠ '#' := by simp
  refine segments_pathOf ?_ (fun c hc => ?_) (List.cons_ne_nil _ _) fun part hpart => ?_
  · rw [toList_regionUri]
    simp [List.intercalate]
  · rw [toList_regionUri, List.mem_append] at hc
    exact hc.elim (hroot c) fun hc => (plain_encode hc).2
  · simp only [List.mem_cons, List.not_mem_nil, or_false] at hpart
    rcases hpart with rfl | rfl | rfl | rfl
    · decide
    · decide
    · decide
    · exact fun h => (plain_encode h).1 rfl

theorem route_regionUri {r : HttpRequest} (hget : r.method = "GET") {text : String}
    (htext : text ≠ "") (huri : r.uri = regionUri text) : route r = .query (showRegion text) := by
  have hlast : Percent.encode text ≠ [] := Percent.encode_ne_nil htext
  rw [route, huri, segments_regionUri]
  simp [hlast, routeSegments, question, hget, withSegment, Percent.decode_encode]

theorem route_regions {r : HttpRequest} (hget : r.method = "GET")
    (huri : r.uri = "/api/v1/regions") : route r = .query listRegions := by
  have hsegments : (pathOf "/api/v1/regions").bind segments =
      some ["api".toList, "v1".toList, "regions".toList] :=
    segments_pathOf (by decide) (by simp) (by decide) (by decide)
  rw [route, huri, hsegments]
  simp [routeSegments, question, hget]

/-! ### Answers -/

variable {s : State}

theorem showRegion_of_view {text : String} {p : Path} {id : RegionId} {v : View}
    (hparse : Path.parse (if text = rootSegment then "" else text) = .ok p)
    (hid : s.tree.resolve p = some id) (hv : s.tree.view? id = some v) :
    showRegion text s = success 200 v.toJson := by
  simp only [showRegion, Tree.resolveText, hparse, bind, Except.bind, pure, Except.pure, hid,
    Option.bind_some, hv]

theorem showRegion_of_none {text : String} {p : Path} (htext : text ≠ rootSegment)
    (hparse : Path.parse text = .ok p) (hp : s.tree.resolve p = none) :
    showRegion text s = failure 404 "region not found" := by
  simp only [showRegion, if_neg htext, Tree.resolveText, hparse, bind, Except.bind, pure,
    Except.pure, hp, Option.bind_none]

theorem showRegion_of_error {text : String} {e : Error} (hparse : Path.parse text = .error e) :
    showRegion text s = failure 400 e.message := by
  have hroot : Path.parse rootSegment = .ok ⟨["_"], by decide⟩ := by rfl
  have htext : text ≠ rootSegment := by
    rintro rfl
    rw [hroot] at hparse
    cases hparse
  simp only [showRegion, if_neg htext, Tree.resolveText, hparse, bind, Except.bind]

theorem parse_empty : Path.parse "" = .ok Path.root := rfl

/-- **Regions are addressed by their paths.** The listing shows every region once, the address of a
region answers what the listing shows of it, and other addresses answer that there is no such
region or why there can be none. Under the reserved name the root answers. -/
theorem regions_addressable {c : Config} {entropy : UInt64} {wall : Nat} {s₀ : State}
    {labels : List Label} (hinit : State.ofConfig c entropy wall = .ok s₀)
    (hrun : run s₀ labels = some s) {r : HttpRequest} (hget : r.method = "GET") :
    (r.uri = "/api/v1/regions" →
      Answers r s (success 200 (.list (s.tree.views.map View.toJson)))) ∧
    (s.tree.views.map (·.id)).Perm (List.range s.tree.size) ∧
    (∀ v ∈ s.tree.views, v.path ≠ Path.root → v.path.toString ≠ "_" →
      r.uri = regionUri v.path.toString → Answers r s (success 200 v.toJson)) ∧
    (∃ v ∈ s.tree.views, v.path = Path.root ∧
      (r.uri = regionUri "_" → Answers r s (success 200 v.toJson))) ∧
    (∀ text p, text ≠ "_" → Path.parse text = .ok p → s.tree.resolve p = none →
      r.uri = regionUri text → Answers r s (failure 404 "region not found")) ∧
    ∀ text e, Path.parse text = .error e → r.uri = regionUri text →
      Answers r s (failure 400 e.message) := by
  obtain ⟨hfresh, hsound⟩ := sound_ofConfig hinit
  have ht : s.tree.Sound := ((hfresh.placed hsound).run hrun).tree
  refine ⟨fun huri => ⟨_, route_regions hget huri, rfl⟩, ht.perm_views, ?_, ?_, ?_, ?_⟩
  · intro v hv hroot hreserved huri
    obtain ⟨hid, hview⟩ := ht.resolve_of_mem_views hv
    have hparse : Path.parse (if v.path.toString = rootSegment then "" else v.path.toString) =
        .ok v.path :=
      (congrArg Path.parse (if_neg hreserved)).trans v.path.parse_toString
    have htext : v.path.toString ≠ "" := by
      intro hempty
      have hparse := Path.parse_toString v.path
      rw [hempty, parse_empty, Except.ok.injEq] at hparse
      exact hroot hparse.symm
    exact ⟨_, route_regionUri hget htext huri, showRegion_of_view hparse hid hview⟩
  · obtain ⟨v, hv⟩ := Tree.exists_view? ht.path?_root
    obtain ⟨entry, -, hpath, -⟩ := Tree.view?_eq_some hv
    have hroot : v.path = Path.root := Option.some.inj (hpath.symm.trans ht.path?_root)
    have hmem : v ∈ s.tree.views :=
      List.mem_filterMap.2 ⟨Tree.root, (ht.mem_subtree_iff ht.path?_root).2
        ⟨Path.root, ht.path?_root, Path.contains_refl _⟩, hv⟩
    refine ⟨v, hmem, hroot, fun huri => ⟨_, route_regionUri hget (by decide) huri, ?_⟩⟩
    exact showRegion_of_view (by rw [rootSegment, if_pos rfl, parse_empty]) Tree.resolve_root hv
  · intro text p hreserved hparse hp huri
    -- the empty text would be the root, which is there
    have htext : text ≠ "" := by
      rintro rfl
      rw [parse_empty, Except.ok.injEq] at hparse
      rw [← hparse, Tree.resolve_root] at hp
      cases hp
    exact ⟨_, route_regionUri hget htext huri, showRegion_of_none hreserved hparse hp⟩
  · intro text e hparse huri
    have htext : text ≠ "" := by
      rintro rfl
      cases hparse
    exact ⟨_, route_regionUri hget htext huri, showRegion_of_error hparse⟩

/-- A region whose name needs encoding, and one with the reserved name. -/
def awkward : Config where
  regions := [{ path := "a/b?.ñ%" }, { path := "_" }]

theorem ofConfig_awkward : ∃ s, State.ofConfig awkward 0 0 = .ok s ∧
    (∃ v ∈ s.tree.views, v.path.toString = "a/b?.ñ%") ∧
    ∃ v ∈ s.tree.views, v.path.toString = "_" := by
  refine ⟨_, rfl, ?_, ?_⟩
  · exact ⟨_, List.mem_filterMap.2 ⟨2, by decide +kernel, rfl⟩, by decide +kernel⟩
  · exact ⟨_, List.mem_filterMap.2 ⟨3, by decide +kernel, rfl⟩, by decide +kernel⟩

theorem regions_addressable_awkward : ∃ s v, State.ofConfig awkward 0 0 = .ok s ∧
    run s [] = some s ∧ v ∈ s.tree.views ∧ v.path.toString = "a/b?.ñ%" ∧
    Answers { method := "GET", uri := regionUri v.path.toString } s (success 200 v.toJson) := by
  obtain ⟨s, hinit, ⟨v, hv, hpath⟩, -⟩ := ofConfig_awkward
  have hroot : v.path ≠ Path.root := by
    intro h
    rw [h] at hpath
    exact absurd hpath (by decide)
  have hreserved : v.path.toString ≠ "_" := by
    rw [hpath]
    decide
  have hrun : run s [] = some s := rfl
  exact ⟨s, v, hinit, hrun, hv, hpath,
    (regions_addressable hinit hrun rfl).2.2.1 v hv hroot hreserved rfl⟩

theorem id_eq_of_success {status : Nat} {v w : View}
    (h : success status v.toJson = success status w.toJson) : v.id = w.id := by
  simp only [success, View.toJson, Response.mk.injEq, Body.json.injEq, Json.object.injEq,
    List.cons.injEq, Prod.mk.injEq, Json.number.injEq, true_and] at h
  exact h.1.1

/-- The region with the reserved name cannot be asked for: the root answers under it. -/
theorem reserved_region_hidden : ¬ ∀ (c : Config) (entropy : UInt64) (wall : Nat) (s : State),
    State.ofConfig c entropy wall = .ok s → ∀ v ∈ s.tree.views, v.path ≠ Path.root →
      Answers { method := "GET", uri := regionUri v.path.toString } s (success 200 v.toJson) := by
  intro hall
  obtain ⟨s, hinit, -, v, hv, hpath⟩ := ofConfig_awkward
  have ht := (sound_ofConfig hinit).2
  obtain ⟨hid, hview⟩ := ht.resolve_of_mem_views hv
  have hroot : v.path ≠ Path.root := by
    intro h
    rw [h] at hpath
    exact absurd hpath (by decide)
  obtain ⟨w, hw⟩ := Tree.exists_view? ht.path?_root
  obtain ⟨answer, hroute, hanswer⟩ := hall awkward 0 0 s hinit v hv hroot
  rw [route_regionUri rfl (by rw [hpath]; decide) rfl, Route.query.injEq] at hroute
  rw [← hroute, hpath, showRegion_of_view (by rfl) Tree.resolve_root hw] at hanswer
  -- both answers would show the same region
  have heq := id_eq_of_success hanswer
  rw [Tree.id_of_view? hw] at heq
  rw [← heq, ht.resolve_eq_some_iff, ht.path?_root, Option.some.injEq] at hid
  exact hroot hid.symm

end FleetControl.Api
