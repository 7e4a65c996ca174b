import FleetControl.Proofs.Data.Shape
import FleetControl.Proofs.Lists
import FleetControl.Toml.Reader

/-!
# Tables are built section by section

A document is carried out statement by statement, and each statement changes the root along a path
of keys. `Toml.Located path put` says that the path leads to a place in a root: `put t` is the root
with the table `t` there. Under keys that were added last a place is found again
(`Toml.Located.table`, `Toml.Located.tables`), so a section of a document, which is a header with
the assignments that follow it, adds one entry at the place its header opens.

`Toml.Adds statements t t'` says that statements add to the root `t` what makes it `t'`, wherever
the last header pointed: a table with its fields (`Toml.Adds.table`), or tables with fields and a
table of their own, under one doubled header (`Toml.Adds.elements`).
-/

namespace FleetControl.Toml

open Data

/-! ### The data of a table -/

theorem entryData_eq_map (t : Table) : entryData t = t.map fun e => (some e.1, e.2.datum) := by
  induction t with
  | nil => rfl
  | cons e t ih => rw [entryData, ih]; rfl

/-- The keys of a table with the data of its items. -/
def Table.fields (t : Table) : List (String × Datum) := t.map fun e => (e.1, e.2.datum)

theorem Table.datum_eq (t : Table) : t.datum = .ofEntries t.fields := by
  rw [datum, Datum.ofEntries, entryData_eq_map, fields, List.map_map]
  rfl

theorem Table.keys_fields (t : Table) : t.fields.map (·.1) = t.map (·.1) := by
  rw [fields, List.map_map]
  rfl

section

variable {α : Type} {t : Table} {name : String} {decoder : Decoder α} {a : α}

theorem Table.mem_fields {item : Item} (h : (name, item) ∈ t) : (name, item.datum) ∈ t.fields :=
  List.mem_map.2 ⟨_, h, rfl⟩

/-- A table whose keys are fields, each there once, is read field by field. -/
theorem Table.decode_datum {shape : Shape α} (h : shape.Reads t.fields a)
    (hkeys : (t.map (·.1)).Nodup) (hfields : ∀ e ∈ t, (shape.fields.lookup e.1).isSome) :
    shape.decode dialect t.datum = .ok a := by
  rw [datum_eq]
  exact h.decode (t.keys_fields ▸ hkeys) (List.forall_mem_map.2 hfields) dialect

theorem Table.reads_required (item : Item) (hkeys : (t.map (·.1)).Nodup) (h : (name, item) ∈ t)
    (ha : decoder item.datum = .ok a) : (Shape.required name decoder).Reads t.fields a :=
  Shape.reads_required (t.keys_fields.symm ▸ hkeys) (mem_fields h) ha

theorem Table.reads_withDefault (item : Item) {default : α} (hkeys : (t.map (·.1)).Nodup)
    (h : (name, item) ∈ t) (ha : decoder item.datum = .ok a) :
    (Shape.withDefault name decoder default).Reads t.fields a :=
  Shape.reads_withDefault (t.keys_fields.symm ▸ hkeys) (mem_fields h) ha

/-- A field that is left out exactly if it has no value is read as it is. -/
theorem Table.reads_optional (item : α → Item) (hkeys : (t.map (·.1)).Nodup) {o : Option α}
    (h : ∀ i, (name, i) ∈ t ↔ ∃ a, o = some a ∧ item a = i)
    (ha : ∀ a, o = some a → Decoder.optional decoder (item a).datum = .ok (some a)) :
    (Shape.optional name decoder).Reads t.fields o := by
  cases o with
  | none =>
    refine Shape.reads_absent fun d hd => ?_
    obtain ⟨⟨_, i⟩, hi, ⟨⟩⟩ := List.mem_map.1 hd
    obtain ⟨a, ⟨⟩, -⟩ := (h i).1 hi
  | some a => exact reads_withDefault (item a) hkeys ((h _).2 ⟨a, rfl, rfl⟩) (ha a rfl)

end

theorem itemData_eq_map (items : List Item) : itemData items = items.map Item.datum := by
  induction items with
  | nil => rfl
  | cons item rest ih => rw [itemData, ih]; rfl

theorem elementData_eq_map (elements : List Table) :
    elementData elements = elements.map Table.datum := by
  induction elements with
  | nil => rfl
  | cons t rest ih => rw [elementData, ih]; rfl

theorem datum_tables (elements : List Table) :
    (Item.tables elements).datum = .list (elements.map Table.datum) true := by
  rw [Item.datum, elementData_eq_map]

/-! ### Places -/

/-- The path leads from the root `put t` to the table `t`, whatever it is. -/
def Located (path : List String) (put : Table → Table) : Prop :=
  ∀ (change : Table → Option Table) (origin : Option Origin) (t : Table),
    Table.update false path (fun _ => change) origin (put t) = (change t).map put

theorem located_root : Located [] fun t => t := by
  intro change _ t
  rw [Table.update, Option.map_id']

theorem replace_append {pre : Table} {key : String} (h : pre.lookup key = none) (old new : Item) :
    Table.replace (pre ++ [(key, old)]) key new = pre ++ [(key, new)] := by
  rw [List.lookup_eq_none_iff] at h
  rw [Table.replace, List.map_append]
  congr 1
  · refine (List.map_congr_left fun e he => ?_).trans pre.map_id
    exact if_neg fun heq => bne_iff_ne.1 (h e he) heq.symm
  · simp

variable {path : List String} {put : Table → Table} {pre : Table} {key : String}

theorem Located.table (h : Located path put) (hpre : pre.lookup key = none) (origin : Origin) :
    Located (key :: path) fun t => pre ++ [(key, .table origin (put t))] := by
  intro change _ t
  rw [Table.update, Lists.lookup_append_of_none hpre]
  simp only [Bool.false_and, Bool.false_eq_true, ↓reduceIte, h change, replace_append hpre]
  cases change t <;> rfl

theorem Located.tables (h : Located path put) (hpre : pre.lookup key = none)
    (elements : List Table) :
    Located (key :: path) fun t => pre ++ [(key, .tables (elements ++ [put t]))] := by
  intro change _ t
  rw [Table.update, Lists.lookup_append_of_none hpre]
  simp only [List.getLast?_concat, List.dropLast_concat, Option.bind_eq_bind, Option.bind_some,
    h change, replace_append hpre]
  cases change t <;> rfl

/-! ### Statements -/

/-- Assignments of items to keys. -/
def assigns (fields : Table) : List Statement := fields.map fun e => .assign [] e.1 e.2

theorem Located.run_assigns (h : Located path put) {t fields : Table}
    (hkeys : ((t ++ fields).map (·.1)).Nodup) :
    (assigns fields).foldlM Draft.run ⟨put t, path⟩ = some ⟨put (t ++ fields), path⟩ := by
  induction fields generalizing t with
  | nil => rw [List.append_nil]; rfl
  | cons e fields ih =>
    have hassoc : t ++ e :: fields = (t ++ [e]) ++ fields := by
      rw [List.append_assoc, List.singleton_append]
    have hfree : t.lookup e.1 = none := Shape.lookup_eq_none_of_nodup hkeys
    have hadd : t.assign [] e.1 e.2 = some (t ++ [e]) := by
      rw [Table.assign, Table.update]
      simp [Table.add, hfree]
    have hrun : Draft.run ⟨put t, path⟩ (.assign [] e.1 e.2) = some ⟨put (t ++ [e]), path⟩ := by
      rw [Draft.run, h, hadd]
      rfl
    rw [assigns, List.map_cons, List.foldlM_cons, hrun, hassoc]
    exact ih (hassoc ▸ hkeys)

theorem Located.run_header (h : Located path put) {t : Table} (hfree : t.lookup key = none)
    (here : List String) :
    Draft.run ⟨put t, here⟩ (.header path key) =
      some ⟨put (t ++ [(key, .table .header [])]), path ++ [key]⟩ := by
  rw [Draft.run, h, Table.openHeader, hfree]
  rfl

/-- The entry of tables under a doubled header, which is there as soon as there is a table. -/
def tablesEntry (key : String) (elements : List Table) : Table :=
  if elements.isEmpty then [] else [(key, .tables elements)]

theorem run_element (hpre : pre.lookup key = none) (elements : List Table) (here : List String) :
    Draft.run ⟨pre ++ tablesEntry key elements, here⟩ (.element [] key) =
      some ⟨pre ++ [(key, .tables (elements ++ [[]]))], [key]⟩ := by
  rw [Draft.run, Table.update, Table.appendElement, tablesEntry]
  cases elements with
  | nil => rw [List.isEmpty_nil, if_pos rfl, List.append_nil, hpre]; rfl
  | cons t elements =>
    rw [List.isEmpty_cons, if_neg Bool.false_ne_true, Lists.lookup_append_of_none hpre]
    simp only [replace_append hpre]
    rfl

/-! ### Sections -/

/-- The statements make the root `t'` out of the root `t`, whichever table is open. -/
def Adds (statements : List Statement) (t t' : Table) : Prop :=
  ∀ here, ∃ here', statements.foldlM Draft.run ⟨t, here⟩ = some ⟨t', here'⟩

theorem Adds.append {front back : List Statement} {t t' t'' : Table} (hfront : Adds front t t')
    (hback : Adds back t' t'') : Adds (front ++ back) t t'' := by
  intro here
  obtain ⟨here', hfront⟩ := hfront here
  obtain ⟨here'', hback⟩ := hback here'
  exact ⟨here'', by rw [List.foldlM_append, hfront]; exact hback⟩

/-- The section of a table. -/
def tableSection (key : String) (fields : Table) : List Statement :=
  .header [] key :: assigns fields

theorem Adds.table (hpre : pre.lookup key = none) {fields : Table}
    (hfields : (fields.map (·.1)).Nodup) :
    Adds (tableSection key fields) pre (pre ++ [(key, .table .header fields)]) := by
  intro here
  refine ⟨[key], ?_⟩
  rw [tableSection, List.foldlM_cons, located_root.run_header hpre]
  exact (located_root.table hpre .header).run_assigns (t := []) hfields

/-- A table under a doubled header with fields and a table of its own. -/
structure Element where
  /-- Its fields. -/
  fields : Table
  /-- The key of its table. -/
  inner : String
  /-- The fields of its table. -/
  innerFields : Table

namespace Element

variable (e : Element)

/-- The sections of an element. -/
def sections (key : String) : List Statement :=
  .element [] key :: (assigns e.fields ++ .header [key] e.inner :: assigns e.innerFields)

/-- The table of an element. -/
def table : Table := e.fields ++ [(e.inner, .table .header e.innerFields)]

/-- No key of an element is there twice. -/
structure Distinct : Prop where
  table : (e.table.map (·.1)).Nodup
  inner : (e.innerFields.map (·.1)).Nodup

theorem Distinct.lookup_inner {e : Element} (h : e.Distinct) : e.fields.lookup e.inner = none := by
  have hkeys := h.table
  rw [Element.table] at hkeys
  exact Shape.lookup_eq_none_of_nodup hkeys

theorem Distinct.fields {e : Element} (h : e.Distinct) : (e.fields.map (·.1)).Nodup := by
  have hkeys := h.table
  rw [Element.table, List.map_append, List.nodup_append] at hkeys
  exact hkeys.1

end Element

theorem Adds.element (hpre : pre.lookup key = none) {e : Element} (he : e.Distinct)
    (elements : List Table) :
    Adds (e.sections key) (pre ++ tablesEntry key elements)
      (pre ++ tablesEntry key (elements ++ [e.table])) := by
  intro here
  refine ⟨[key, e.inner], ?_⟩
  -- the new element is the last one, where both its fields and its table belong
  have hplace : Located [key] fun t => pre ++ [(key, .tables (elements ++ [t]))] :=
    located_root.tables hpre elements
  have hinner : Located [key, e.inner] fun t =>
      pre ++ [(key, .tables (elements ++ [e.fields ++ [(e.inner, .table .header t)]]))] :=
    (located_root.table he.lookup_inner .header).tables hpre elements
  rw [Element.sections, List.foldlM_cons, run_element hpre, Option.bind_eq_bind, Option.bind_some,
    List.foldlM_append, hplace.run_assigns (t := []) he.fields, Option.bind_eq_bind,
    Option.bind_some, List.nil_append, List.foldlM_cons, hplace.run_header he.lookup_inner,
    Option.bind_eq_bind, Option.bind_some]
  have hend := hinner.run_assigns (t := []) he.inner
  have hlast : tablesEntry key (elements ++ [e.table]) =
      [(key, .tables (elements ++ [e.table]))] := if_neg (by simp)
  rw [hlast]
  exact hend

theorem Adds.elements {es : List Element} (hpre : es ≠ [] → pre.lookup key = none)
    (hes : ∀ e ∈ es, e.Distinct) :
    Adds (es.flatMap (·.sections key)) pre (pre ++ tablesEntry key (es.map (·.table))) := by
  -- the elements come one by one, behind those that are there already
  suffices h : ∀ elements, Adds (es.flatMap (·.sections key)) (pre ++ tablesEntry key elements)
      (pre ++ tablesEntry key (elements ++ es.map (·.table))) by
    have := h []
    rwa [tablesEntry, List.isEmpty_nil, if_pos rfl, List.append_nil, List.nil_append] at this
  intro elements
  induction es generalizing elements with
  | nil => intro here; exact ⟨here, by rw [List.map_nil, List.append_nil]; rfl⟩
  | cons e es ih =>
    have hpre := hpre (List.cons_ne_nil e es)
    rw [List.flatMap_cons, List.map_cons, List.append_cons]
    exact (Adds.element hpre (hes e List.mem_cons_self) elements).append
      (ih (fun _ => hpre) (fun e' he' => hes e' (List.mem_cons_of_mem _ he')) _)

end FleetControl.Toml
