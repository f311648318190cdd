import Mathlib
import Interpolation.Document.Hcl
import Interpolation.Proofs.Document.Templates

/-!
# Structures of a document

A document of attributes is read in two steps. The whole text must have the form of a body, and
nothing is said about its structures where it has not. Then the structures are taken in their order.
Each sets an entry or offends, never both: an attribute sets one if its value has a text, and it
offends with its key if the value has none; a block offends with its name.

So the variables of a document are what all its structures set, in their order, and a fault is that
of the first structure that offends, whatever stands behind it.

## Main definitions

* `Value.Denotes` — the text of a value, a template included that is literal throughout.
* `Structure.Sets` — the entry that a structure sets.
* `Structure.Offends` — what is wrong with a structure that sets none.

## Main results

* `setStructure_eq_ok_iff`, `setStructure_eq_error_iff` — what one structure does.
* `foldlM_setStructure_eq_ok_iff`, `foldlM_setStructure_eq_error_iff` — what a body does.
* `nodup_keys_of_parse?` — no two attributes of a body have the same key.
* `read_structures_in_order` — entries in the order of the structures, or the first fault.
-/

namespace Interpolation.Hcl

open Document

variable {value : Value} {text : String} {taken offender : Structure} {entry : String × String}
  {fault : Fault} {vars result : Variables} {body : Body}

/-! ### Values -/

/-- A value has a text: a text, a number and a truth value have one, and so does a template that
decomposes into literal parts. -/
inductive Value.Denotes : Value → String → Prop
  | text (chars : List Char) : Denotes (.text chars) (String.ofList chars)
  | number (n : Number) : Denotes (.number n) n.text
  | truth (value : Bool) : Denotes (.truth value) (if value then "true" else "false")
  | template {written : List Char} {pieces : List (List Char)}
      (h : partsOf? written = some (pieces.map .literal)) :
      Denotes (.template written) (String.ofList pieces.flatten)

theorem Value.text?_eq_some_iff : value.text? = some text ↔ value.Denotes text := by
  constructor
  · intro h
    cases value with
    | text chars =>
      cases h
      exact .text chars
    | number n =>
      cases h
      exact .number n
    | truth value =>
      cases h
      exact .truth value
    | template written =>
      obtain ⟨chars, hchars, rfl⟩ := Option.map_eq_some_iff.mp h
      obtain ⟨pieces, hpieces, rfl⟩ := readLiteral?_eq_some_iff.mp hchars
      exact .template hpieces
    | computed => cases h
  · rintro (_ | _ | _ | h)
    · rfl
    · rfl
    · rfl
    · exact Option.map_eq_some_iff.mpr ⟨_, readLiteral?_eq_some_iff.mpr ⟨_, h, rfl⟩, rfl⟩

/-! ### One structure -/

/-- A structure sets an entry: an attribute whose value has a text does. -/
inductive Structure.Sets : Structure → String × String → Prop
  | attribute {key : String} {value : Value} {text : String} (h : value.Denotes text) :
      Sets (.attribute key value) (key, text)

/-- A structure offends: a block does, and so does an attribute with a value that must be computed
or with a template that has a part to compute or does not decompose. -/
inductive Structure.Offends : Structure → Fault → Prop
  | block (name : String) : Offends (.block name) (.unexpectedBlock name)
  | computed (key : String) : Offends (.attribute key .computed) (.unsupportedValue key)
  | part {key : String} {written : List Char} {parts : List Part} {form : Form}
      (hparts : partsOf? written = some parts) (hform : .computed form ∈ parts) :
      Offends (.attribute key (.template written)) (.unsupportedValue key)
  | malformed {key : String} {written : List Char} (h : partsOf? written = none) :
      Offends (.attribute key (.template written)) (.unsupportedValue key)

/-- An attribute offends with its key if its value has no text. -/
theorem Structure.offends_attribute_iff {key : String} :
    (Structure.attribute key value).Offends fault ↔
      value.text? = none ∧ fault = .unsupportedValue key := by
  constructor
  · rintro (_ | _ | ⟨hparts, hform⟩ | hparts)
    · exact ⟨rfl, rfl⟩
    · have hnone := readLiteral?_eq_none_iff.mpr (Or.inr ⟨_, _, hparts, hform⟩)
      exact ⟨Option.map_eq_none_iff.mpr hnone, rfl⟩
    · have hnone := readLiteral?_eq_none_iff.mpr (Or.inl hparts)
      exact ⟨Option.map_eq_none_iff.mpr hnone, rfl⟩
  · rintro ⟨hnone, rfl⟩
    cases value with
    | text chars => cases hnone
    | number n => cases hnone
    | truth value => cases hnone
    | template written =>
      rcases readLiteral?_eq_none_iff.mp (Option.map_eq_none_iff.mp hnone) with
        hparts | ⟨parts, form, hparts, hform⟩
      · exact .malformed hparts
      · exact .part hparts hform
    | computed => exact .computed key

/-- A structure is added if it sets an entry. -/
theorem setStructure_eq_ok_iff :
    setStructure vars taken = .ok result ↔
      ∃ entry, taken.Sets entry ∧ vars.insert entry.1 entry.2 = result := by
  rcases taken with ⟨key, value⟩ | name
  · rw [setStructure]
    constructor
    · intro h
      split at h
      · next text htext =>
        cases h
        exact ⟨(key, text), .attribute (Value.text?_eq_some_iff.mp htext), rfl⟩
      · cases h
    · rintro ⟨_, ⟨hdenotes⟩, rfl⟩
      rw [Value.text?_eq_some_iff.mpr hdenotes]
  · refine iff_of_false nofun ?_
    rintro ⟨_, ⟨⟩, -⟩

/-- It is refused if it offends, whatever was set before. -/
theorem setStructure_eq_error_iff :
    setStructure vars taken = .error fault ↔ taken.Offends fault := by
  rcases taken with ⟨key, value⟩ | name
  · rw [setStructure, Structure.offends_attribute_iff]
    cases value.text? <;> simp [eq_comm]
  · rw [setStructure]
    constructor
    · intro h
      cases h
      exact .block name
    · rintro ⟨⟩
      rfl

/-- No structure both sets an entry and offends. -/
theorem Structure.not_offends_of_sets (h : taken.Sets entry) (fault : Fault) :
    ¬ taken.Offends fault := by
  intro hoffends
  have hok : setStructure ∅ taken = .ok _ := setStructure_eq_ok_iff.mpr ⟨entry, h, rfl⟩
  rw [setStructure_eq_error_iff.mpr hoffends] at hok
  cases hok

/-! ### All structures -/

/-- Structures are added if each sets an entry, in their order. -/
theorem foldlM_setStructure_eq_ok_iff :
    body.foldlM setStructure vars = .ok result ↔
      ∃ entries, List.Forall₂ Structure.Sets body entries ∧ vars.insertAll entries = result := by
  induction body generalizing vars with
  | nil => simp [pure, Except.pure]
  | cons first rest ih =>
    rw [List.foldlM_cons]
    constructor
    · intro h
      cases hfirst : setStructure vars first with
      | error fault =>
        rw [hfirst] at h
        cases h
      | ok later =>
        rw [hfirst] at h
        obtain ⟨entry, hentry, rfl⟩ := setStructure_eq_ok_iff.mp hfirst
        obtain ⟨entries, hentries, hresult⟩ := ih.mp h
        exact ⟨entry :: entries, .cons hentry hentries, hresult⟩
    · rintro ⟨_, hsets, rfl⟩
      obtain ⟨entry, entries, hentry, hentries, rfl⟩ := List.forall₂_cons_left_iff.mp hsets
      rw [setStructure_eq_ok_iff.mpr ⟨entry, hentry, rfl⟩]
      exact ih.mpr ⟨entries, hentries, rfl⟩

/-- The first structure of a body that sets no entry offends with a fault. -/
def Body.OffendsFirst (body : Body) (fault : Fault) : Prop :=
  ∃ before offender after, body = before ++ offender :: after ∧
    (∀ taken ∈ before, ∃ entry, taken.Sets entry) ∧ offender.Offends fault

/-- Structures are refused with the fault of the first one that offends. -/
theorem foldlM_setStructure_eq_error_iff :
    body.foldlM setStructure vars = .error fault ↔ body.OffendsFirst fault := by
  induction body generalizing vars with
  | nil =>
    refine iff_of_false nofun ?_
    rintro ⟨before, offender, after, hbody, -⟩
    simp at hbody
  | cons first rest ih =>
    rw [List.foldlM_cons]
    constructor
    · intro h
      cases hfirst : setStructure vars first with
      | error found =>
        rw [hfirst] at h
        cases h
        exact ⟨[], first, rest, rfl, by simp, setStructure_eq_error_iff.mp hfirst⟩
      | ok later =>
        rw [hfirst] at h
        obtain ⟨entry, hentry, -⟩ := setStructure_eq_ok_iff.mp hfirst
        obtain ⟨before, offender, after, rfl, hbefore, hoffends⟩ := ih.mp h
        exact ⟨first :: before, offender, after, rfl,
          List.forall_mem_cons.mpr ⟨⟨entry, hentry⟩, hbefore⟩, hoffends⟩
    · rintro ⟨before, offender, after, hbody, hbefore, hoffends⟩
      cases before with
      | nil =>
        cases hbody
        rw [setStructure_eq_error_iff.mpr hoffends]
        rfl
      | cons other before =>
        cases hbody
        obtain ⟨⟨entry, hentry⟩, hbefore⟩ := List.forall_mem_cons.mp hbefore
        rw [setStructure_eq_ok_iff.mpr ⟨entry, hentry, rfl⟩]
        exact ih.mpr ⟨before, offender, after, rfl, hbefore, hoffends⟩

/-! ### Keys -/

/-- The keys of the entries that structures set are those of the structures. -/
theorem map_fst_of_forall₂_sets {entries : List (String × String)}
    (h : List.Forall₂ Structure.Sets body entries) :
    entries.map Prod.fst = body.filterMap Structure.key? := by
  induction h with
  | nil => rfl
  | cons hsets _ ih =>
    cases hsets
    exact congrArg (List.cons _) ih

theorem exists_sets_of_forall₂ {entries : List (String × String)}
    (h : List.Forall₂ Structure.Sets body entries) :
    ∀ taken ∈ body, ∃ entry, taken.Sets entry := by
  have hboth := h.imp fun taken entry hsets =>
    (⟨⟨entry, hsets⟩, hsets⟩ : (∃ entry, taken.Sets entry) ∧ taken.Sets entry)
  exact ((List.forall₂_and_left _ _).mp hboth).1

theorem nodup_keys_of_parse? (h : Body.parse? text = some body) :
    (body.filterMap Structure.key?).Nodup := by
  obtain ⟨form, hread⟩ := Reader.readAll_eq_some_iff.mp h
  obtain ⟨_, _, -, hbody⟩ := Reader.run_bind_eq_ok.mp hread
  obtain ⟨collected, _, -, hdistinct⟩ := Reader.run_bind_eq_ok.mp hbody
  obtain ⟨_, _, hrequire, hreturn⟩ := Reader.run_bind_eq_ok.mp hdistinct
  cases hreturn
  rw [Reader.run_require] at hrequire
  split at hrequire
  · next hkeys => exact of_decide_eq_true hkeys
  · cases hrequire

/-! ### Documents -/

theorem read_eq_unreadable_iff : read text = .error .unreadable ↔ Body.parse? text = none := by
  rw [read]
  cases Body.parse? text with
  | none => simp
  | some body =>
    refine iff_of_false (fun h => ?_) (by simp)
    obtain ⟨before, offender, after, -, -, hoffends⟩ := foldlM_setStructure_eq_error_iff.mp h
    cases hoffends

theorem read_of_parse? (h : Body.parse? text = some body) : read text = readBody body := by
  rw [read, h]

/-- The variables of a document have an entry for each structure, in the order of these. -/
theorem read_eq_ok_iff (h : Body.parse? text = some body) :
    read text = .ok vars ↔ List.Forall₂ Structure.Sets body vars.entries := by
  have hinsert {entries : List (String × String)}
      (hsets : List.Forall₂ Structure.Sets body entries) :
      ((∅ : Variables).insertAll entries).entries = entries := by
    refine OrderedMap.entries_insertAll_of_nodup ∅ ?_
    rw [map_fst_of_forall₂_sets hsets]
    exact nodup_keys_of_parse? h
  rw [read_of_parse? h, readBody, foldlM_setStructure_eq_ok_iff]
  constructor
  · rintro ⟨entries, hsets, rfl⟩
    rwa [hinsert hsets]
  · intro hsets
    exact ⟨_, hsets, OrderedMap.ext (hinsert hsets)⟩

theorem read_eq_error_iff (h : Body.parse? text = some body) :
    read text = .error fault ↔ body.OffendsFirst fault := by
  rw [read_of_parse? h, readBody, foldlM_setStructure_eq_error_iff]

/-- **Structures in order.** A document without the form of a body is unreadable. Any other is read
if each structure sets an entry, into these entries in the order of the structures. If not each one
does, the first that does not is the fault, and structures behind it may be replaced by any others
that have the form of a body with those before them. -/
theorem read_structures_in_order (text : String) :
    (read text = .error .unreadable ↔ Body.parse? text = none) ∧
    ∀ body, Body.parse? text = some body →
      (body.filterMap Structure.key?).Nodup ∧
      ((∃ vars, read text = .ok vars) ↔ ∀ taken ∈ body, ∃ entry, taken.Sets entry) ∧
      (∀ vars, read text = .ok vars ↔ List.Forall₂ Structure.Sets body vars.entries) ∧
      (∀ fault, read text = .error fault ↔ body.OffendsFirst fault) ∧
      ∀ before offender after fault, body = before ++ offender :: after →
        (∀ taken ∈ before, ∃ entry, taken.Sets entry) → offender.Offends fault →
        ∀ again others, Body.parse? again = some (before ++ offender :: others) →
          read again = .error fault := by
  refine ⟨read_eq_unreadable_iff, fun body h => ⟨nodup_keys_of_parse? h, ?_,
    fun vars => read_eq_ok_iff h, fun fault => read_eq_error_iff h, ?_⟩⟩
  · constructor
    · rintro ⟨vars, hvars⟩
      exact exists_sets_of_forall₂ ((read_eq_ok_iff h).mp hvars)
    · intro hsets
      cases hread : read text with
      | ok vars => exact ⟨vars, rfl⟩
      | error fault =>
        obtain ⟨before, offender, after, rfl, -, hoffends⟩ := (read_eq_error_iff h).mp hread
        obtain ⟨entry, hentry⟩ := hsets offender (by simp)
        exact absurd hoffends (Structure.not_offends_of_sets hentry fault)
  · intro before offender after fault _ hbefore hoffends again others hagain
    exact (read_eq_error_iff hagain).mpr ⟨before, offender, others, rfl, hbefore, hoffends⟩

/-- Behind an attribute with a value to compute stands a block, or another attribute. -/
theorem read_structures_in_order_computed :
    let text := "A = 1\nB = <<E\n$$\x7bx\x7d\nE\nC = \"$\x7bx\x7d\"\nd \x7b\x7d\n"
    let again := "A = 1\nB = <<E\n$$\x7bx\x7d\nE\nC = \"$\x7bx\x7d\"\nD = true\n"
    (Body.parse? text).isSome ∧ (Body.parse? again).isSome ∧
      read text = .error (.unsupportedValue "C") ∧ read again = .error (.unsupportedValue "C") := by
  intro text again
  let before : Body := [.attribute "A" (.number (.integer 1)),
    .attribute "B" (.template "$$\x7bx\x7d\n".toList)]
  let offender : Structure := .attribute "C" (.template "$\x7bx\x7d".toList)
  have htext : Body.parse? text = some (before ++ offender :: [.block "d"]) := by decide +kernel
  have hagain : Body.parse? again =
      some (before ++ offender :: [.attribute "D" (.truth true)]) := by
    decide +kernel
  have hbefore : ∀ taken ∈ before, ∃ entry, taken.Sets entry := by
    simp only [before, List.forall_mem_cons]
    exact ⟨⟨("A", "1"), .attribute (Value.text?_eq_some_iff.mp (by decide +kernel))⟩,
      ⟨("B", "$\x7bx\x7d\n"), .attribute (Value.text?_eq_some_iff.mp (by decide +kernel))⟩,
      by simp⟩
  have hoffends : offender.Offends (.unsupportedValue "C") :=
    Structure.offends_attribute_iff.mpr ⟨by decide +kernel, rfl⟩
  obtain ⟨-, hbody⟩ := read_structures_in_order text
  obtain ⟨-, -, -, hfault, hreplace⟩ := hbody _ htext
  refine ⟨by rw [htext]; rfl, by rw [hagain]; rfl,
    (hfault _).mpr ⟨before, offender, _, rfl, hbefore, hoffends⟩, ?_⟩
  exact hreplace before offender _ _ rfl hbefore hoffends again _ hagain

end Interpolation.Hcl
