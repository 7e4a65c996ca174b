import FleetControl.Deployment
import FleetControl.Proofs.Lists
import FleetControl.Proofs.SortedMap
import Mathlib.Tactic.SplitIfs

/-!
# Fingerprints of container specifications

The encoding of a specification lists its parts one behind the other. It tells *plain*
specifications apart (`ContainerSpec.Plain.encoding_inj`), in which nothing can be taken for what
separates the parts. Outside of them it does not: each of the conditions on plain specifications is
needed (`ContainerSpec.encoding_collides`), and a request for a container with the encoding of the
one before leaves every instance as it is (`Deployment.isMatched_update_of_encoding_eq`).
-/

namespace FleetControl

namespace Digest

theorem hexByte_injective : Function.Injective hexByte := by
  intro a b h
  have hdigit : ∀ m < 16, ∀ n < 16, Nat.digitChar m = Nat.digitChar n → m = n := by decide
  simp only [hexByte, List.cons.injEq, and_true] at h
  have ha := a.toNat_lt
  have hb := b.toNat_lt
  have hhigh := hdigit _ (by omega) _ (by omega) h.1
  have hlow := hdigit _ (by omega) _ (by omega) h.2
  exact UInt8.toNat_inj.1 (by omega)

theorem hex_injective : Function.Injective hex := by
  intro a b h
  have hdigits : a.flatMap hexByte = b.flatMap hexByte := String.ofList_injective h
  exact Lists.flatMap_injective (n := 1) (fun _ => rfl) hexByte_injective hdigits

end Digest

theorem SortedMap.toList_injective {κ ν : Type} [Ord κ] :
    Function.Injective (toList : SortedMap κ ν → List (κ × ν)) := by
  rintro ⟨es, hes⟩ ⟨es', hes'⟩ h
  obtain rfl : es = es' := h
  rfl

namespace ContainerSpec

/-! ### Texts as bytes -/

theorem utf8_injective : Function.Injective utf8 := by
  intro s t h
  have hbytes : s.toList.utf8Encode = t.toList.utf8Encode := congrArg List.toByteArray h
  rw [String.utf8Encode_toList, String.utf8Encode_toList] at hbytes
  exact String.toByteArray_inj.1 hbytes

/-- A byte below 128 stands for a character of its own. -/
theorem mem_utf8 {s : String} {c : Char} (hc : c.val.toNat < 128) :
    UInt8.ofNat c.val.toNat ∈ utf8 s → c ∈ s.toList := by
  intro h
  obtain ⟨d, hd, hbyte⟩ := List.mem_flatMap.1 h
  have hval : d.val.toNat = c.val.toNat := by
    rw [String.utf8EncodeChar.eq_1] at hbyte
    split_ifs at hbyte <;>
      simp only [List.mem_cons, List.not_mem_nil, or_false, ← UInt8.toNat_inj,
        UInt8.toNat_ofNat'] at hbyte <;> omega
  rwa [← Char.ext (UInt32.toNat_inj.1 hval)]

/-! ### Parts joined by separators -/

/-- Parts with a zero byte after each. -/
def ended (parts : List (List UInt8)) : List UInt8 := parts.flatMap (· ++ [0])

theorem ended_cons_append (x : List UInt8) (xs : List (List UInt8)) (s : List UInt8) :
    ended (x :: xs) ++ s = x ++ 0 :: (ended xs ++ s) := by
  simp [ended]

/-- The title `m` of the next part, set off by a zero byte, is not found among the parts. -/
structure Untitled (m : List UInt8) (parts : List (List UInt8)) : Prop where
  zero : ∀ x ∈ parts, 0 ∉ x
  title : ¬ [[], m] <:+: parts

theorem Untitled.tail {m x : List UInt8} {xs : List (List UInt8)} (h : Untitled m (x :: xs)) :
    Untitled m xs :=
  ⟨fun y hy => h.zero y (List.mem_cons_of_mem _ hy), fun hm => h.title (List.infix_cons hm)⟩

/-- The next part does not begin among the parts. -/
theorem Untitled.cons_ne {m x s t : List UInt8} {xs : List (List UInt8)} (hm : m ≠ [])
    (hm0 : 0 ∉ m) (h : Untitled m (x :: xs)) :
    0 :: (m ++ 0 :: s) ≠ ended (x :: xs) ++ 0 :: (m ++ 0 :: t) := by
  intro heq
  rw [ended_cons_append] at heq
  obtain ⟨rfl, hrest⟩ :=
    Lists.append_cons_inj List.not_mem_nil (h.zero x List.mem_cons_self) heq
  cases xs with
  | nil =>
    obtain ⟨a, m, rfl⟩ := List.exists_cons_of_ne_nil hm
    obtain ⟨rfl, -⟩ := List.cons.inj hrest
    exact hm0 List.mem_cons_self
  | cons y xs =>
    rw [ended_cons_append] at hrest
    obtain ⟨rfl, -⟩ := Lists.append_cons_inj hm0 (h.tail.zero y List.mem_cons_self) hrest
    exact h.title ⟨[], xs, rfl⟩

theorem ended_inj {m s t : List UInt8} {xs ys : List (List UInt8)} (hm : m ≠ []) (hm0 : 0 ∉ m)
    (hx : Untitled m xs) (hy : Untitled m ys)
    (h : ended xs ++ 0 :: (m ++ 0 :: s) = ended ys ++ 0 :: (m ++ 0 :: t)) : xs = ys ∧ s = t := by
  induction xs generalizing ys with
  | nil =>
    cases ys with
    | nil => exact ⟨rfl, by simpa using h⟩
    | cons y ys => exact absurd h (hy.cons_ne hm hm0)
  | cons x xs ih =>
    cases ys with
    | nil => exact absurd h.symm (hx.cons_ne hm hm0)
    | cons y ys =>
      rw [ended_cons_append, ended_cons_append] at h
      obtain ⟨rfl, hrest⟩ :=
        Lists.append_cons_inj (hx.zero x List.mem_cons_self) (hy.zero y List.mem_cons_self) h
      obtain ⟨rfl, rfl⟩ := ih hx.tail hy.tail hrest
      exact ⟨rfl, rfl⟩

/-! ### Ports -/

theorem portBytes_injective : Function.Injective portBytes := by
  intro a b h
  simp only [portBytes, List.cons.injEq, and_true, ← UInt8.toNat_inj, UInt16.toNat_toUInt8,
    UInt16.toNat_shiftRight] at h
  have ha := a.toNat_lt
  have hb := b.toNat_lt
  refine UInt16.toNat_inj.1 ?_
  simp [Nat.shiftRight_eq_div_pow] at h
  omega

/-! ### Plain specifications -/

/-- The bytes of a variable, without the zero byte after it. -/
def entryBytes (e : String × String) : List UInt8 := utf8 e.1 ++ utf8 "=" ++ utf8 e.2

/-- Nothing in the specification can be taken for what separates the parts of its encoding: no text
has a zero character, no variable has an equals sign in its name, and no empty argument stands
before the argument `env`. -/
structure Plain (spec : ContainerSpec) : Prop where
  image : '\x00' ∉ spec.image.toList
  command : ∀ arg ∈ spec.command, '\x00' ∉ arg.toList
  untitled : ¬ ["", "env"] <:+: spec.command
  env : ∀ e ∈ spec.env.toList, '\x00' ∉ e.1.toList ∧ '=' ∉ e.1.toList ∧ '\x00' ∉ e.2.toList

theorem encoding_eq (spec : ContainerSpec) :
    spec.encoding = utf8 "image" ++ 0 :: (utf8 spec.image ++ 0 :: (utf8 "command" ++ 0 ::
      (ended (spec.command.map utf8) ++ 0 :: (utf8 "env" ++ 0 ::
        (ended (spec.env.toList.map entryBytes) ++ 0 :: (utf8 "ports" ++ 0 ::
          spec.ports.flatMap portBytes)))))) := by
  simp [encoding, ended, entryBytes, List.flatMap_map]

theorem zero_notMem_utf8 {s : String} (h : '\x00' ∉ s.toList) : 0 ∉ utf8 s :=
  mt (mem_utf8 (c := '\x00') (by decide)) h

theorem Plain.command_untitled {spec : ContainerSpec} (h : spec.Plain) :
    Untitled (utf8 "env") (spec.command.map utf8) := by
  constructor
  · intro x hx
    obtain ⟨arg, harg, rfl⟩ := List.mem_map.1 hx
    exact zero_notMem_utf8 (h.command arg harg)
  · intro hinfix
    obtain ⟨before, after, heq⟩ := hinfix
    obtain ⟨most, args, hcommand, hmost, -⟩ := List.map_eq_append_iff.1 heq.symm
    obtain ⟨front, title, rfl, -, htitle⟩ := List.map_eq_append_iff.1 hmost
    -- the arguments with the bytes of the title are the title
    have htext : title = ["", "env"] := List.map_injective_iff.2 utf8_injective htitle
    exact h.untitled ⟨front, args, by rw [hcommand, htext]⟩

theorem Plain.env_untitled {spec : ContainerSpec} (h : spec.Plain) :
    Untitled (utf8 "ports") (spec.env.toList.map entryBytes) := by
  constructor
  · intro x hx
    obtain ⟨e, he, rfl⟩ := List.mem_map.1 hx
    obtain ⟨hname, -, hvalue⟩ := h.env e he
    have hequals : (0 : UInt8) ∉ utf8 "=" := by decide
    simp only [entryBytes, List.mem_append, not_or]
    exact ⟨⟨zero_notMem_utf8 hname, hequals⟩, zero_notMem_utf8 hvalue⟩
  · -- a variable is never without bytes, for its name ends with an equals sign
    intro hinfix
    have hmem : [] ∈ spec.env.toList.map entryBytes := hinfix.subset List.mem_cons_self
    obtain ⟨e, -, he⟩ := List.mem_map.1 hmem
    have hequals : utf8 "=" ≠ [] := by decide
    simp only [entryBytes, List.append_eq_nil_iff] at he
    exact hequals he.1.2

/-- Variables with the same bytes are the same, if their names have no equals sign. -/
theorem entryBytes_inj {e e' : String × String} (h : '=' ∉ e.1.toList) (h' : '=' ∉ e'.1.toList)
    (heq : entryBytes e = entryBytes e') : e = e' := by
  have hequals : utf8 "=" = [UInt8.ofNat '='.val.toNat] := by decide
  simp only [entryBytes, hequals, List.append_assoc, List.singleton_append] at heq
  obtain ⟨hname, hvalue⟩ := Lists.append_cons_inj (mt (mem_utf8 (c := '=') (by decide)) h)
    (mt (mem_utf8 (c := '=') (by decide)) h') heq
  exact Prod.ext (utf8_injective hname) (utf8_injective hvalue)

theorem entries_inj {es es' : List (String × String)} (h : ∀ e ∈ es, '=' ∉ e.1.toList)
    (h' : ∀ e ∈ es', '=' ∉ e.1.toList) (heq : es.map entryBytes = es'.map entryBytes) :
    es = es' := by
  induction es generalizing es' with
  | nil => exact (List.map_eq_nil_iff.1 heq.symm).symm
  | cons e es ih =>
    cases es' with
    | nil => cases heq
    | cons e' es' =>
      obtain ⟨hhead, htail⟩ := List.cons.inj heq
      obtain ⟨he, hes⟩ := List.forall_mem_cons.1 h
      obtain ⟨he', hes'⟩ := List.forall_mem_cons.1 h'
      rw [entryBytes_inj he he' hhead, ih hes hes' htail]

/-- **Plain specifications are told apart by their encodings.** -/
theorem Plain.encoding_inj {a b : ContainerSpec} (ha : a.Plain) (hb : b.Plain)
    (h : a.encoding = b.encoding) : a = b := by
  rw [encoding_eq, encoding_eq] at h
  obtain ⟨-, h⟩ := List.cons.inj (List.append_cancel_left h)
  obtain ⟨himage, h⟩ :=
    Lists.append_cons_inj (zero_notMem_utf8 ha.image) (zero_notMem_utf8 hb.image) h
  obtain ⟨-, h⟩ := List.cons.inj (List.append_cancel_left h)
  obtain ⟨hcommand, h⟩ :=
    ended_inj (by decide) (by decide) ha.command_untitled hb.command_untitled h
  obtain ⟨henv, hports⟩ := ended_inj (by decide) (by decide) ha.env_untitled hb.env_untitled h
  have hentries := entries_inj (fun e he => (ha.env e he).2.1) (fun e he => (hb.env e he).2.1) henv
  obtain ⟨image, command, env, ports⟩ := a
  obtain ⟨image', command', env', ports'⟩ := b
  rw [ContainerSpec.mk.injEq]
  exact ⟨utf8_injective himage, List.map_injective_iff.2 utf8_injective hcommand,
    SortedMap.toList_injective hentries,
    Lists.flatMap_injective (n := 1) (fun _ => rfl) portBytes_injective hports⟩

/-- A specification of an image alone, but for a command, an environment and ports. -/
def plainWeb : ContainerSpec := { image := "web" }

/-- **Encodings collide.** Each pair breaks one of the conditions on plain specifications: a text
with a zero character, an empty argument before the argument `env`, and an equals sign in the name
of a variable. -/
theorem encoding_collides :
    (∃ a b : ContainerSpec, a ≠ b ∧ a.encoding = b.encoding ∧
      a = { plainWeb with command := ["a\x00b"] } ∧ b = { plainWeb with command := ["a", "b"] }) ∧
    (∃ a b : ContainerSpec, a ≠ b ∧ a.encoding = b.encoding ∧
      a = { plainWeb with command := ["", "env", "", "ports"] } ∧
      b = { plainWeb with ports := [101, 28278, 0, 28783, 29300, 29440] }) ∧
    ∃ a b : ContainerSpec, a ≠ b ∧ a.encoding = b.encoding ∧
      a = { plainWeb with env := .ofList [("A", "B=C")] } ∧
      b = { plainWeb with env := .ofList [("A=B", "C")] } := by
  refine ⟨⟨_, _, ?_, ?_, rfl, rfl⟩, ⟨_, _, ?_, ?_, rfl, rfl⟩, ⟨_, _, ?_, ?_, rfl, rfl⟩⟩ <;> decide

end ContainerSpec

namespace Deployment

open ContainerSpec

/-! ### Changes of the specification -/

/-- A request for a container with the encoding of the one before goes unnoticed: every instance is
as matched or stale as it was. -/
theorem isMatched_update_of_encoding_eq {d : Deployment} {request : Request}
    (hd : d.specFingerprint = d.request.container.fingerprint)
    (h : request.container.encoding = d.request.container.encoding) :
    (d.update request).isMatched = d.isMatched := by
  have hsame : (d.update request).specFingerprint = d.specFingerprint := by
    rw [hd, ContainerSpec.fingerprint, ← h]
    rfl
  funext i
  rw [isMatched, isMatched, hsame]

/-- **A change between plain specifications is noticed.** Two plain specifications with one encoding
are the same. Unless their digests collide, a request for another plain container makes every
instance stale that was matched before. -/
theorem plain_change_noticed {d : Deployment} {request : Request}
    (hd : d.specFingerprint = d.request.container.fingerprint)
    (hplain : d.request.container.Plain) (hplain' : request.container.Plain) :
    (request.container.encoding = d.request.container.encoding →
      request.container = d.request.container) ∧
    ((Digest.Sha256.hash request.container.encoding =
        Digest.Sha256.hash d.request.container.encoding →
      request.container.encoding = d.request.container.encoding) →
      request.container ≠ d.request.container →
      ∀ i ∈ d.matched, i ∈ (d.update request).stale) := by
  refine ⟨hplain'.encoding_inj hplain, fun hdigest hne i hi => ?_⟩
  obtain ⟨hmem, hmatched⟩ := List.mem_filter.1 hi
  have hfp : request.container.fingerprint ≠ d.specFingerprint := by
    rw [hd]
    intro heq
    exact hne (hplain'.encoding_inj hplain (hdigest (Digest.hex_injective heq)))
  have hspec : i.specFingerprint = d.specFingerprint := eq_of_beq hmatched
  refine List.mem_filter.2 ⟨hmem, ?_⟩
  simpa [isMatched, update, hspec] using Ne.symm hfp

/-- A record of one instance of a container, which is wanted. -/
def oneInstance (container : ContainerSpec) : Deployment where
  id := "a"
  request := { container, scale := 1 }
  specFingerprint := container.fingerprint
  instances := [⟨"a-1", "n", "c-1", container.fingerprint, 0, 1⟩]
  createdAt := 0
  errorLogCapacity := 1

theorem matched_oneInstance (container : ContainerSpec) :
    (oneInstance container).matched = (oneInstance container).instances :=
  List.filter_eq_self.2 fun i hi => by
    rw [List.mem_singleton.1 hi]
    exact beq_self_eq_true _

theorem plain_change_noticed_otherImage :
    (oneInstance plainWeb).matched.length = 1 ∧ plainWeb.Plain ∧
    ∃ other : ContainerSpec, other.Plain ∧ other ≠ plainWeb ∧
      Digest.Sha256.hash other.encoding ≠ Digest.Sha256.hash plainWeb.encoding ∧
      ∀ i ∈ (oneInstance plainWeb).matched,
        i ∈ ((oneInstance plainWeb).update { container := other, scale := 1 }).stale := by
  have hplain : ∀ image : String, '\x00' ∉ image.toList → ({ image } : ContainerSpec).Plain :=
    fun image h => ⟨h, fun _ harg => absurd harg List.not_mem_nil,
      fun htitle => List.cons_ne_nil _ _ (List.infix_nil.1 htitle),
      fun _ he => absurd he List.not_mem_nil⟩
  have hweb : plainWeb.Plain := hplain "web" (by decide)
  have hdb := hplain "db" (by decide)
  have hne : ({ image := "db" } : ContainerSpec) ≠ plainWeb := by decide
  have hhash : Digest.Sha256.hash ({ image := "db" } : ContainerSpec).encoding ≠
      Digest.Sha256.hash plainWeb.encoding := by decide +kernel
  refine ⟨by rw [matched_oneInstance]; rfl, hweb, _, hdb, hne, hhash, ?_⟩
  exact (@plain_change_noticed (oneInstance plainWeb) { container := { image := "db" }, scale := 1 }
    rfl hweb hdb).2 (fun heq => absurd heq hhash) hne

end Deployment

end FleetControl
