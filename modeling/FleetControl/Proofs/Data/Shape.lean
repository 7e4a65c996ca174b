import FleetControl.Data.Shape
import FleetControl.Proofs.SortedMap
import Mathlib.Tactic.SplitIfs

/-!
# Records are read field by field

A shape goes through the entries of a record and collects the values of its fields, and then builds
a value from them. For a record whose entries are all fields, each there once, both come down to a
statement about each field alone: `Shape.Reads` says it of a part of a shape, follows the way shapes
are put together (`Shape.Reads.seq`), and gives the value of the record (`Shape.Reads.decode`).

In the other direction, what a shape builds is made of values of its fields
(`Shape.build_of_decode`), whether the record is written with its fields by name or as a list.
-/

namespace FleetControl.Data

/-- A record that was read to its end, with these entries. -/
def Datum.ofEntries (es : List (String × Datum)) : Datum :=
  .record (es.map fun e => (some e.1, e.2)) true

/-- The items of a list and the values of a record. -/
def Datum.parts : Datum → List Datum
  | .list items _ => items
  | .record entries _ => entries.map (·.2)
  | _ => []

namespace Decoder

/-- A map of texts is read from its entries. -/
theorem map_text (m : SortedMap String String) :
    map text (.ofEntries (m.toList.map fun e => (e.1, .text (some e.2)))) = .ok m := by
  have hentries : ∀ es : List (String × String),
      ((es.map fun e => (e.1, Datum.text (some e.2))).map fun e => (some e.1, e.2)).mapM
        (entry text) = .ok es := by
    intro es
    induction es with
    | nil => rfl
    | cons e es ih =>
      rw [List.map_cons, List.map_cons, List.mapM_cons, ih]
      rfl
  rw [Datum.ofEntries, map, hentries]
  exact congrArg Except.ok m.ofList_toList

/-- A list is read element by element. -/
theorem list_map {α : Type} {decode : Decoder α} {datum : α → Datum} {xs : List α}
    (h : ∀ x ∈ xs, decode (datum x) = .ok x) :
    list decode (.list (xs.map datum) true) = .ok xs := by
  have hitems : (xs.map datum).mapM decode = .ok xs := by
    induction xs with
    | nil => rfl
    | cons x xs ih =>
      rw [List.map_cons, List.mapM_cons, h x List.mem_cons_self,
        ih fun x hx => h x (List.mem_cons_of_mem _ hx)]
      rfl
  rw [list, hitems]
  rfl

theorem word64_natural (n : UInt64) : word64 (.number (.natural n.toNat)) = .ok n := by
  rw [word64, below, if_pos n.toNat_lt]
  simp

theorem word32_natural (n : UInt32) : word32 (.number (.natural n.toNat)) = .ok n := by
  rw [word32, below, if_pos n.toNat_lt]
  simp

end Decoder

namespace Shape

variable {α β : Type} {es : List (String × Datum)}

/-- The shape reads a record with these entries as a value: its fields have values that it takes,
and the value of the record is built from them. -/
structure Reads (shape : Shape α) (es : List (String × Datum)) (a : α) : Prop where
  checked : ∀ k d check, (k, d) ∈ es → shape.fields.lookup k = some check → check d = .ok ()
  built : shape.build (fun k => es.lookup k) = .ok a

theorem lookup_of_mem (hes : (es.map (·.1)).Nodup) {k : String} {d : Datum} (h : (k, d) ∈ es) :
    es.lookup k = some d := by
  induction es with
  | nil => cases h
  | cons e es ih =>
    obtain ⟨hnot, hes⟩ := List.nodup_cons.1 hes
    rcases List.mem_cons.1 h with rfl | h
    · exact List.lookup_cons_self
    · have hne : k ≠ e.1 := by
        rintro rfl
        exact hnot (List.mem_map.2 ⟨_, h, rfl⟩)
      rw [List.lookup_cons, beq_false_of_ne hne]
      exact ih hes h

theorem Reads.seq {f : Shape (α → β)} {x : Shape α} {g : α → β} {a : α} (hf : f.Reads es g)
    (hx : x.Reads es a) : (f <*> x).Reads es (g a) := by
  constructor
  · intro k d check hd hcheck
    change (f.fields ++ x.fields).lookup k = some check at hcheck
    rw [List.lookup_append, Option.or_eq_some_iff] at hcheck
    rcases hcheck with hcheck | ⟨-, hcheck⟩
    · exact hf.checked k d check hd hcheck
    · exact hx.checked k d check hd hcheck
  · change (do return (← f.build fun k => es.lookup k) (← x.build fun k => es.lookup k)) = _
    rw [hf.built, hx.built]
    rfl

theorem Reads.map {x : Shape α} {a : α} (h : x.Reads es a) (f : α → β) :
    (f <$> x).Reads es (f a) :=
  Reads.seq ⟨by rintro _ _ _ - ⟨⟩, rfl⟩ h

theorem lookup_singleton {k name : String} {γ : Type} {check c : γ}
    (h : [(name, check)].lookup k = some c) : k = name ∧ check = c := by
  rw [List.lookup_cons] at h
  split at h
  · next heq => exact ⟨eq_of_beq heq, Option.some.inj h⟩
  · cases h

variable {name : String} {decoder : Decoder α}

/-- A field that is checked by its decoder, and has a value, is accepted. -/
theorem checked_field (hes : (es.map (·.1)).Nodup) {d : Datum} (hd : (name, d) ∈ es) {a : α}
    (ha : decoder d = .ok a) {k : String} {d' : Datum} {check : Datum → Except Fault Unit}
    (hd' : (k, d') ∈ es)
    (hcheck : [(name, fun d => do let _ ← decoder d)].lookup k = some check) :
    check d' = .ok () := by
  obtain ⟨rfl, rfl⟩ := lookup_singleton hcheck
  obtain rfl : d' = d := Option.some.inj ((lookup_of_mem hes hd').symm.trans (lookup_of_mem hes hd))
  simp only [ha]
  rfl

theorem reads_required (hes : (es.map (·.1)).Nodup) {d : Datum} (hd : (name, d) ∈ es) {a : α}
    (ha : decoder d = .ok a) : (required name decoder).Reads es a := by
  refine ⟨fun k d' check hd' hcheck => checked_field hes hd ha hd' hcheck, ?_⟩
  simp only [required, lookup_of_mem hes hd, ha]

theorem reads_withDefault (hes : (es.map (·.1)).Nodup) {d : Datum} (hd : (name, d) ∈ es)
    {a default : α} (ha : decoder d = .ok a) : (withDefault name decoder default).Reads es a := by
  refine ⟨fun k d' check hd' hcheck => checked_field hes hd ha hd' hcheck, ?_⟩
  simp only [withDefault, lookup_of_mem hes hd, ha]

theorem reads_absent {default : α} (h : ∀ d, (name, d) ∉ es) :
    (withDefault name decoder default).Reads es default := by
  constructor
  · intro k d check hd hcheck
    obtain ⟨rfl, -⟩ := lookup_singleton hcheck
    exact absurd hd (h d)
  · have hnone : es.lookup name = none := by
      rw [List.lookup_eq_none_iff]
      rintro ⟨k, d⟩ hd
      rw [bne_iff_ne]
      rintro rfl
      exact h d hd
    simp only [withDefault, hnone]

theorem lookup_eq_none_of_nodup {γ : Type} {front back : List (String × γ)} {e : String × γ}
    (h : ((front ++ e :: back).map (·.1)).Nodup) : front.lookup e.1 = none := by
  rw [List.map_append, List.nodup_append] at h
  rw [List.lookup_eq_none_iff]
  intro p hp
  rw [bne_iff_ne]
  intro heq
  exact h.2.2 _ (List.mem_map.2 ⟨p, hp, rfl⟩) _ (List.mem_map.2 ⟨e, List.mem_cons_self, rfl⟩) heq.symm

theorem collect_append {shape : Shape α} {found rest : List (String × Datum)}
    (hes : ((found ++ rest).map (·.1)).Nodup)
    (hrest : ∀ e ∈ rest, ∃ check, shape.fields.lookup e.1 = some check ∧ check e.2 = .ok ()) :
    shape.collect (rest.map fun e => (some e.1, e.2)) found = .ok (found ++ rest) := by
  induction rest generalizing found with
  | nil => rw [List.append_nil]; rfl
  | cons e rest ih =>
    obtain ⟨check, hlookup, hcheck⟩ := hrest e List.mem_cons_self
    have hfree : found.lookup e.1 = none := lookup_eq_none_of_nodup hes
    have hassoc : found ++ e :: rest = (found ++ [e]) ++ rest := by
      rw [List.append_assoc, List.singleton_append]
    rw [hassoc] at hes ⊢
    rw [List.map_cons, collect, hlookup]
    simp only [hfree, hcheck]
    exact ih hes fun e' he' => hrest e' (List.mem_cons_of_mem _ he')

/-- **A record whose entries are fields, each there once, is read.** -/
theorem Reads.decode {shape : Shape α} {a : α} (h : shape.Reads es a) (hes : (es.map (·.1)).Nodup)
    (hfields : ∀ e ∈ es, (shape.fields.lookup e.1).isSome) (dialect : Dialect) :
    shape.decode dialect (.ofEntries es) = .ok a := by
  have hchecked : ∀ e ∈ es, ∃ check, shape.fields.lookup e.1 = some check ∧ check e.2 = .ok () := by
    intro e he
    obtain ⟨check, hcheck⟩ := Option.isSome_iff_exists.1 (hfields e he)
    exact ⟨check, hcheck, h.checked e.1 e.2 check he hcheck⟩
  have hcollect : shape.collect (es.map fun e => (some e.1, e.2)) [] = .ok es :=
    collect_append hes hchecked
  rw [Datum.ofEntries, Shape.decode, hcollect]
  exact h.built

/-! ### What is built -/

theorem bind_eq_ok {x : Except Fault α} {f : α → Except Fault β} {b : β} (h : x >>= f = .ok b) :
    ∃ a, x = .ok a ∧ f a = .ok b := by
  cases x with
  | error fault => cases h
  | ok a => exact ⟨a, rfl, h⟩

theorem build_seq {f : Shape (α → β)} {x : Shape α} {find : String → Option Datum} {b : β}
    (h : (f <*> x).build find = .ok b) :
    ∃ g a, f.build find = .ok g ∧ x.build find = .ok a ∧ g a = b := by
  obtain ⟨g, hg, h⟩ := bind_eq_ok h
  obtain ⟨a, ha, ⟨⟩⟩ := bind_eq_ok h
  exact ⟨g, a, hg, ha, rfl⟩

theorem build_map {x : Shape α} {f : α → β} {find : String → Option Datum} {b : β}
    (h : (f <$> x).build find = .ok b) : ∃ a, x.build find = .ok a ∧ f a = b := by
  obtain ⟨g, a, ⟨⟩, ha, rfl⟩ := build_seq h
  exact ⟨a, ha, rfl⟩

theorem build_withDefault {find : String → Option Datum} {default a : α}
    (h : (withDefault name decoder default).build find = .ok a) :
    a = default ∨ ∃ d, find name = some d ∧ decoder d = .ok a := by
  simp only [withDefault] at h
  split at h
  · next d hd => exact .inr ⟨d, hd, h⟩
  · exact .inl (Except.ok.inj h).symm

theorem mem_of_collect {shape : Shape α} {entries : List (Option String × Datum)}
    {found found' : List (String × Datum)} (h : shape.collect entries found = .ok found')
    {e : String × Datum} (he : e ∈ found') : e ∈ found ∨ (some e.1, e.2) ∈ entries := by
  induction entries generalizing found with
  | nil => cases h; exact .inl he
  | cons entry rest ih =>
    obtain ⟨_ | key, d⟩ := entry
    · cases h
    rw [collect] at h
    split at h
    · split_ifs at h
      · cases h
      obtain ⟨_, -, h⟩ := bind_eq_ok h
      rcases ih h with he | he
      · rcases List.mem_append.1 he with he | he
        · exact .inl he
        · rw [List.mem_singleton.1 he]
          exact .inr List.mem_cons_self
      · exact .inr (List.mem_cons_of_mem _ he)
    · split_ifs at h
      exact (ih h).imp id (List.mem_cons_of_mem _)

theorem mem_of_align {fields : List (String × (Datum → Except Fault Unit))} {items : List Datum}
    {found : List (String × Datum)} {surplus : List Datum}
    (h : align fields items = .ok (found, surplus)) {e : String × Datum} (he : e ∈ found) :
    e.2 ∈ items := by
  induction fields generalizing items found surplus with
  | nil => cases h; cases he
  | cons field fields ih =>
    cases items with
    | nil => cases h; cases he
    | cons d rest =>
      obtain ⟨_, -, h⟩ := bind_eq_ok h
      obtain ⟨⟨found', surplus'⟩, hrest, ⟨⟩⟩ := bind_eq_ok h
      rcases List.mem_cons.1 he with rfl | he
      · exact List.mem_cons_self
      · exact List.mem_cons_of_mem _ (ih hrest he)

/-- A value that is read is built from the parts of what it is read from. -/
theorem build_of_decode {shape : Shape α} {dialect : Dialect} {d : Datum} {a : α}
    (h : shape.decode dialect d = .ok a) :
    ∃ find, shape.build find = .ok a ∧ ∀ k p, find k = some p → p ∈ d.parts := by
  have hlookup : ∀ found : List (String × Datum), (∀ e ∈ found, e.2 ∈ d.parts) →
      ∀ k p, found.lookup k = some p → p ∈ d.parts := by
    intro found hfound k p hp
    obtain ⟨front, back, rfl, -⟩ := List.lookup_eq_some_iff.1 hp
    exact hfound _ (List.mem_append_right _ List.mem_cons_self)
  unfold Shape.decode at h
  split at h
  -- a record has its fields by name, a list has them in their order
  · obtain ⟨found, hfound, h⟩ := bind_eq_ok h
    split_ifs at h
    refine ⟨(List.lookup · found), h, hlookup found fun e he => ?_⟩
    rcases mem_of_collect hfound he with he | he
    · cases he
    · exact List.mem_map.2 ⟨_, he, rfl⟩
  · obtain ⟨⟨found, surplus⟩, hfound, h⟩ := bind_eq_ok h
    dsimp only at h
    split at h
    · cases h
    obtain ⟨a', ha', h⟩ := bind_eq_ok h
    split_ifs at h
    cases h
    exact ⟨(List.lookup · found), ha', hlookup found fun e he => mem_of_align hfound he⟩
  · cases h

end Shape

end FleetControl.Data
