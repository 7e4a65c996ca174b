import FleetControl.Proofs.Toml.Table
import Mathlib.Tactic.SplitIfs

/-!
# The integers of a document have 64 bits

`Toml.Item.InRange` says that every integer in an item, at any depth, is one of 64 bits. Reading a
value gives only such items (`Toml.Reader.inRange_value`), and neither assignments nor headers make
other ones out of them, so the table of a document is in range too
(`Toml.Reader.inRange_document`).

A decoder sees the data of the table: `Toml.WithinRange` says of data what `Item.InRange` says of
items, and a word of 64 bits that is read from such data is below half of what it could be
(`Toml.WithinRange.word64`).
-/

namespace FleetControl.Toml

open Data

/-- Every integer in the item has 64 bits. -/
inductive Item.InRange : Item → Prop
  | text (s : String) : InRange (.text s)
  | integer {i : Int} (h : Number.inRange i) : InRange (.integer i)
  | real : InRange .real
  | bool (b : Bool) : InRange (.bool b)
  | moment (s : String) : InRange (.moment s)
  | array {items : List Item} (h : ∀ item ∈ items, InRange item) : InRange (.array items)
  | inline {entries : Table} (h : ∀ e ∈ entries, InRange e.2) : InRange (.inline entries)
  | table {origin : Origin} {entries : Table} (h : ∀ e ∈ entries, InRange e.2) :
      InRange (.table origin entries)
  | tables {elements : List Table} (h : ∀ t ∈ elements, ∀ e ∈ t, InRange e.2) :
      InRange (.tables elements)

/-! ### Tables -/

namespace Table

/-- Every integer in the table has 64 bits. -/
def InRange (t : Table) : Prop := ∀ e ∈ t, e.2.InRange

theorem inRange_nil : InRange [] := fun _ h => absurd h List.not_mem_nil

variable {t t' : Table} {key : String} {item : Item}

theorem InRange.concat (h : t.InRange) (hitem : item.InRange) : InRange (t ++ [(key, item)]) := by
  intro e he
  rcases List.mem_append.1 he with he | he
  · exact h e he
  · rw [List.mem_singleton.1 he]
    exact hitem

theorem InRange.lookup (h : t.InRange) (hitem : t.lookup key = some item) : item.InRange := by
  rw [List.lookup_eq_some_iff] at hitem
  obtain ⟨front, back, rfl, -⟩ := hitem
  exact h _ (List.mem_append_right _ List.mem_cons_self)

theorem InRange.replace (h : t.InRange) (hitem : item.InRange) : (t.replace key item).InRange := by
  intro e he
  obtain ⟨old, hold, rfl⟩ := List.mem_map.1 he
  dsimp only
  split_ifs
  · exact hitem
  · exact h old hold

theorem InRange.add (h : t.InRange) (hitem : item.InRange) (hadd : t.add key item = some t') :
    t'.InRange := by
  unfold Table.add at hadd
  split_ifs at hadd
  cases hadd
  exact h.concat hitem

theorem InRange.openHeader (h : t.InRange) (hopen : t.openHeader key = some t') : t'.InRange := by
  unfold Table.openHeader at hopen
  split at hopen
  · cases hopen
    exact h.concat (.table inRange_nil)
  · next entries hlookup =>
    cases hopen
    cases h.lookup hlookup with
    | table hentries => exact h.replace (.table hentries)
  · cases hopen

theorem InRange.appendElement (h : t.InRange) (happend : t.appendElement key = some t') :
    t'.InRange := by
  unfold Table.appendElement at happend
  split at happend
  · cases happend
    exact h.concat (.tables fun t ht => List.mem_singleton.1 ht ▸ inRange_nil)
  · next elements hlookup =>
    cases happend
    cases h.lookup hlookup with
    | tables helements =>
      refine h.replace (.tables fun t ht => ?_)
      rcases List.mem_append.1 ht with ht | ht
      · exact helements t ht
      · exact List.mem_singleton.1 ht ▸ inRange_nil
  · cases happend

/-- A change that keeps tables in range does so at the end of a path. -/
theorem InRange.update {dotted : Bool} {path : List String}
    {change : Option Origin → Table → Option Table}
    (hchange : ∀ origin t t', InRange t → change origin t = some t' → InRange t')
    {origin : Option Origin} (h : t.InRange)
    (hupdate : update dotted path change origin t = some t') : t'.InRange := by
  induction path generalizing origin t t' with
  | nil => exact hchange origin t t' h hupdate
  | cons key path ih =>
    rw [Table.update] at hupdate
    split at hupdate
    · -- a table is made where there is none, and it is empty
      simp only [Option.bind_eq_bind, Option.bind_eq_some_iff, Option.pure_def] at hupdate
      obtain ⟨inner, hinner, ⟨⟩⟩ := hupdate
      exact h.concat (.table (ih inRange_nil hinner))
    · next hlookup =>
      split_ifs at hupdate
      · cases hupdate
      obtain ⟨inner, hinner, ⟨⟩⟩ := Option.bind_eq_some_iff.1 hupdate
      cases h.lookup hlookup with
      | table hentries => exact h.replace (.table (ih hentries hinner))
    · next elements hlookup =>
      -- of the tables under a doubled header only the last one is changed
      simp only [Option.bind_eq_bind, Option.bind_eq_some_iff, Option.pure_def] at hupdate
      obtain ⟨last, hlast, last', hlast', ⟨⟩⟩ := hupdate
      cases h.lookup hlookup with
      | tables helements =>
        refine h.replace (.tables fun t ht => ?_)
        rcases List.mem_append.1 ht with ht | ht
        · exact helements t (List.dropLast_subset _ ht)
        · rw [List.mem_singleton.1 ht]
          exact ih (helements last (List.mem_of_getLast? hlast)) hlast'
    · cases hupdate

theorem InRange.assign {path : List String} (h : t.InRange) (hitem : item.InRange)
    (hassign : t.assign path key item = some t') : t'.InRange := by
  refine h.update (fun origin t t' ht hchange => ?_) hassign
  split at hchange
  · cases hchange
  · exact ht.add hitem hchange

end Table

/-! ### Reading -/

/-- What is read, if anything, is in range. -/
def ReadsInRange (result : Option (Item × List Char)) : Prop :=
  ∀ item rest, result = some (item, rest) → item.InRange

theorem Number.inRange_integer? {i : Int} {item : Item} (h : integer? i = some item) :
    item.InRange := by
  unfold integer? at h
  split_ifs at h with hi
  cases h
  exact .integer hi

theorem Number.inRange_real? {negative : Bool} {mantissa : Nat} {e : Int} {item : Item}
    (h : real? negative mantissa e = some item) : item.InRange := by
  unfold real? at h
  split_ifs at h
  cases h
  exact .real

theorem Number.inRange_inBase (base : Nat) (cs : List Char) : ReadsInRange (inBase base cs) := by
  intro item rest h
  obtain ⟨_, -, h⟩ := Option.bind_eq_some_iff.1 h
  obtain ⟨item', hitem, ⟨⟩⟩ := Option.bind_eq_some_iff.1 h
  exact inRange_integer? hitem

theorem Number.inRange_decimalNumber (cs : List Char) : ReadsInRange (decimalNumber cs) := by
  intro item rest h
  unfold decimalNumber at h
  dsimp only at h
  split at h
  · cases h
    exact .real
  · cases h
    exact .real
  · obtain ⟨_, -, h⟩ := Option.bind_eq_some_iff.1 h
    split at h
    · split at h
      all_goals
        obtain ⟨item', hitem, ⟨⟩⟩ := Option.bind_eq_some_iff.1 h
        exact inRange_real? hitem
    · split at h
      · obtain ⟨item', hitem, ⟨⟩⟩ := Option.bind_eq_some_iff.1 h
        exact inRange_real? hitem
      · obtain ⟨item', hitem, ⟨⟩⟩ := Option.bind_eq_some_iff.1 h
        exact inRange_integer? hitem

theorem Number.inRange_read (cs : List Char) : ReadsInRange (read cs) := by
  unfold read
  split
  · exact inRange_inBase 16 _
  · exact inRange_inBase 8 _
  · exact inRange_inBase 2 _
  · exact inRange_decimalNumber _

namespace Reader

theorem inRange_bareValue (cs : List Char) : ReadsInRange (bareValue cs) := by
  intro item rest h
  unfold bareValue at h
  split at h
  · cases h
    exact .bool true
  · cases h
    exact .bool false
  · split at h
    · cases h
      exact .moment _
    · exact Number.inRange_read _ item rest h

/-- What the three readers of values give with some fuel is in range; an inline table is if the
entries before were. -/
structure InRangeWith (fuel : Nat) : Prop where
  value : ∀ depth cs, ReadsInRange (value fuel depth cs)
  elements : ∀ depth cs items rest, elements fuel depth cs = some (items, rest) →
    ∀ item ∈ items, item.InRange
  entries : ∀ depth t cs t' rest, inlineEntries fuel depth t cs = some (t', rest) →
    t.InRange → t'.InRange

theorem InRangeWith.value_succ {fuel : Nat} (ih : InRangeWith fuel) (depth : Nat)
    (cs : List Char) : ReadsInRange (Reader.value (fuel + 1) depth cs) := by
  intro item rest h
  rw [Reader.value.eq_def] at h
  dsimp only at h
  split at h
  · split_ifs at h
    · cases h
    obtain ⟨rest', -, h⟩ := Option.bind_eq_some_iff.1 h
    split at h
    · cases h
      exact .array fun _ h => absurd h List.not_mem_nil
    · obtain ⟨⟨items, rest''⟩, hitems, ⟨⟩⟩ := Option.bind_eq_some_iff.1 h
      exact .array (ih.elements _ _ _ _ hitems)
  · split_ifs at h
    · cases h
    split at h
    · cases h
      exact .inline Table.inRange_nil
    · obtain ⟨⟨t, rest'⟩, ht, ⟨⟩⟩ := Option.bind_eq_some_iff.1 h
      exact .inline (ih.entries _ _ _ _ _ ht Table.inRange_nil)
  · split_ifs at h
    · obtain ⟨⟨s, rest'⟩, -, ⟨⟩⟩ := Option.map_eq_some_iff.1 h
      exact .text _
    · exact inRange_bareValue cs item rest h

theorem InRangeWith.elements_succ {fuel : Nat} (ih : InRangeWith fuel) {depth : Nat}
    {cs rest : List Char} {items : List Item}
    (h : Reader.elements (fuel + 1) depth cs = some (items, rest)) :
    ∀ item ∈ items, item.InRange := by
  simp only [Reader.elements, Option.bind_eq_bind, Option.bind_eq_some_iff] at h
  obtain ⟨⟨item, rest₁⟩, hitem, rest₂, -, h⟩ := h
  have hone : ∀ item' ∈ [item], item'.InRange := fun item' h' =>
    List.mem_singleton.1 h' ▸ ih.value _ _ _ _ hitem
  split at h
  · cases h
    exact hone
  · obtain ⟨rest₃, -, h⟩ := Option.bind_eq_some_iff.1 h
    split at h
    · cases h
      exact hone
    · obtain ⟨⟨more, rest₄⟩, hmore, ⟨⟩⟩ := Option.bind_eq_some_iff.1 h
      exact List.forall_mem_cons.2 ⟨hone item List.mem_cons_self, ih.elements _ _ _ _ hmore⟩
  · cases h

theorem InRangeWith.entries_succ {fuel : Nat} (ih : InRangeWith fuel) {depth : Nat} {t t' : Table}
    {cs rest : List Char} (h : inlineEntries (fuel + 1) depth t cs = some (t', rest))
    (ht : t.InRange) : t'.InRange := by
  simp only [inlineEntries, Option.bind_eq_bind, Option.bind_eq_some_iff] at h
  obtain ⟨⟨path, key, rest₁⟩, -, h⟩ := h
  split at h
  · obtain ⟨⟨item, rest₂⟩, hitem, h⟩ := Option.bind_eq_some_iff.1 h
    obtain ⟨t₁, hassign, h⟩ := Option.bind_eq_some_iff.1 h
    have ht₁ := ht.assign (ih.value _ _ _ _ hitem) hassign
    split at h
    · cases h
      exact ht₁
    · exact ih.entries _ _ _ _ _ h ht₁
    · cases h
  · cases h

theorem inRangeWith (fuel : Nat) : InRangeWith fuel := by
  -- the three readers call each other with one unit less
  induction fuel with
  | zero =>
    constructor
    · intro depth cs item rest h
      simp [value] at h
    · intro depth cs items rest h
      simp [elements] at h
    · intro depth t cs t' rest h
      simp [inlineEntries] at h
  | succ fuel ih =>
    exact ⟨ih.value_succ, fun _ _ _ _ => ih.elements_succ, fun _ _ _ _ _ => ih.entries_succ⟩

/-- Reading gives values in range. -/
theorem inRange_value (fuel depth : Nat) (cs : List Char) : ReadsInRange (value fuel depth cs) :=
  (inRangeWith fuel).value depth cs

end Reader

/-! ### Documents -/

/-- The item that a statement assigns is in range. -/
def Statement.InRange : Statement → Prop
  | .assign _ _ item => item.InRange
  | _ => True

theorem Draft.inRange_run {d d' : Draft} {s : Statement} (hs : s.InRange) (hd : d.root.InRange)
    (h : d.run s = some d') : d'.root.InRange := by
  cases s with
  | assign path key item =>
    obtain ⟨root, hroot, ⟨⟩⟩ := Option.bind_eq_some_iff.1 h
    exact hd.update (fun _ _ _ ht hchange => ht.assign hs hchange) hroot
  | header path key =>
    obtain ⟨root, hroot, ⟨⟩⟩ := Option.bind_eq_some_iff.1 h
    exact hd.update (fun _ _ _ ht hchange => ht.openHeader hchange) hroot
  | element path key =>
    obtain ⟨root, hroot, ⟨⟩⟩ := Option.bind_eq_some_iff.1 h
    exact hd.update (fun _ _ _ ht hchange => ht.appendElement hchange) hroot

theorem Draft.inRange_foldlM {ss : List Statement} (hss : ∀ s ∈ ss, s.InRange) {d d' : Draft}
    (hd : d.root.InRange) (h : ss.foldlM run d = some d') : d'.root.InRange := by
  induction ss generalizing d with
  | nil => cases h; exact hd
  | cons s ss ih =>
    rw [List.foldlM_cons] at h
    obtain ⟨d₁, hrun, h⟩ := Option.bind_eq_some_iff.1 h
    obtain ⟨hs, hss⟩ := List.forall_mem_cons.1 hss
    exact ih hss (inRange_run hs hd hrun) h

namespace Reader

theorem inRange_statement {cs rest : List Char} {s : Statement}
    (h : statement cs = some (s, rest)) : s.InRange := by
  unfold statement at h
  split at h
  all_goals
    simp only [Option.bind_eq_bind, Option.bind_eq_some_iff] at h
    obtain ⟨⟨path, key, rest₁⟩, -, h⟩ := h
    split at h
  · cases h; trivial
  · cases h
  · cases h; trivial
  · cases h
  · obtain ⟨⟨item, rest₂⟩, hitem, ⟨⟩⟩ := Option.bind_eq_some_iff.1 h
    exact inRange_value _ _ _ _ _ hitem
  · cases h

theorem inRange_statementsIn {n : Nat} {cs : List Char} {ss : List Statement}
    (h : statementsIn n cs = some ss) : ∀ s ∈ ss, s.InRange := by
  induction n generalizing cs ss with
  | zero => cases h
  | succ n ih =>
    unfold statementsIn at h
    split at h
    · cases h
      exact fun _ h => absurd h List.not_mem_nil
    · split at h
      · exact ih h
      · simp only [Option.bind_eq_bind, Option.bind_eq_some_iff] at h
        obtain ⟨⟨s, rest₁⟩, hs, rest₂, -, ss', hss, ⟨⟩⟩ := h
        exact List.forall_mem_cons.2 ⟨inRange_statement hs, ih hss⟩

/-- **Every integer of a document has 64 bits.** -/
theorem inRange_document {text : String} {t : Table} (h : document text = some t) : t.InRange := by
  obtain ⟨ss, hss, h⟩ := Option.bind_eq_some_iff.1 h
  obtain ⟨d, hd, rfl⟩ := Option.map_eq_some_iff.1 h
  exact Draft.inRange_foldlM (inRange_statementsIn hss) Table.inRange_nil hd

end Reader

/-! ### Data -/

/-- Every natural number in the data is an integer of 64 bits. -/
inductive WithinRange : Datum → Prop
  | null : WithinRange .null
  | bool (b : Bool) : WithinRange (.bool b)
  | natural {n : Nat} (h : Number.inRange n) : WithinRange (.number (.natural n))
  | negative (n : Nat) : WithinRange (.number (.negative n))
  | real : WithinRange (.number .real)
  | text (s : Option String) : WithinRange (.text s)
  | list {items : List Datum} (h : ∀ d ∈ items, WithinRange d) (whole : Bool) :
      WithinRange (.list items whole)
  | record {entries : List (Option String × Datum)} (h : ∀ e ∈ entries, WithinRange e.2)
      (whole : Bool) : WithinRange (.record entries whole)

theorem withinRange_integerDatum {i : Int} (h : Number.inRange i) :
    WithinRange (integerDatum i) := by
  cases i with
  | ofNat n => exact .natural h
  | negSucc n => exact .negative _

theorem withinRange_entryData {t : Table} (h : ∀ e ∈ t, WithinRange e.2.datum) :
    ∀ e ∈ entryData t, WithinRange e.2 := by
  rw [entryData_eq_map]
  exact List.forall_mem_map.2 h

theorem Item.InRange.datum {item : Item} (h : item.InRange) : WithinRange item.datum := by
  induction h with
  | text s => exact .text _
  | integer h => exact withinRange_integerDatum h
  | real => exact .real
  | bool b => exact .bool b
  | moment s =>
    refine .record (fun e he => ?_) true
    rw [List.mem_singleton.1 he]
    exact .text _
  | array _ ih =>
    refine .list ?_ true
    rw [itemData_eq_map]
    exact List.forall_mem_map.2 ih
  | inline _ ih => exact .record (withinRange_entryData ih) true
  | table _ ih => exact .record (withinRange_entryData ih) true
  | tables _ ih =>
    rw [datum_tables]
    refine .list (List.forall_mem_map.2 fun t ht => ?_) true
    exact .record (withinRange_entryData (ih t ht)) true

theorem Table.InRange.datum {t : Table} (h : t.InRange) : WithinRange t.datum :=
  .record (withinRange_entryData fun e he => (h e he).datum) true

/-- A word of 64 bits read from data in range has 63 bits. -/
theorem WithinRange.word64 {d : Datum} (h : WithinRange d) {n : UInt64}
    (hn : Decoder.word64 d = .ok n) : Number.inRange n.toNat := by
  cases h with
  | natural h =>
    rw [Decoder.word64, Decoder.below] at hn
    split_ifs at hn with hlt
    · cases hn
      rw [Nat.toUInt64, UInt64.toNat_ofNat_of_lt' hlt]
      exact h
    · cases hn
  | _ => cases hn

end FleetControl.Toml
