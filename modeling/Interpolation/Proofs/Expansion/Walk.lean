import Interpolation.Expansion.Event
import Interpolation.Proofs.Expansion.References

/-!
# The walk along an order

A walk settles the names of a list one after the other. What carries every statement about it is
one invariant: each value reached so far is the text of its variable, written with the values
reached so far, which hold one for every name that the text refers to. A settled name never
changes, since a later value is put behind the others and the texts written before do not refer to
its name.

Along an order no step of the walk can fail. The names that a text refers to come before its own
name, so they have values when its turn comes.

## Main definitions

* `Plan.Settled` — the values reached are final.

## Main results

* `Plan.settle_eq_ok_iff` — how a name gets its value.
* `Plan.Settled.insert`, `Plan.Settled.walk` — one step and a whole walk keep values final.
* `Plan.keys_walk` — the keys that a walk adds, in order.
* `Plan.covers_of_walk` — along an order, a name's references have values when its turn comes.
* `Plan.exists_walk_of_order` — along an order, the walk gets to its end.
* `Plan.expand_eq_ok_iff`, `Plan.expand_eq_error_iff` — everything that an expansion can come to.
-/

namespace Interpolation

namespace Plan

variable {p : Plan} {reached values : Variables} {names : List String}

/-- Each value is the text of its variable, written with values that hold one for every name that
the text refers to. -/
def Settled (p : Plan) (reached : Variables) : Prop :=
  ∀ name value, reached.get? name = some value →
    ∃ text, p.given.get? name = some text ∧ reached.Covers text ∧
      Template.substitute text reached p.escapes = value

/-! ### One step -/

/-- A name keeps the value that it has. Otherwise its value is its text, written with the values
reached, if these hold one for every name that the text refers to. -/
theorem settle_eq_ok_iff {name value : String} :
    p.settle reached name = .ok value ↔
      reached.get? name = some value ∨
      (name ∉ reached.keys ∧ ∃ text, p.given.get? name = some text ∧ reached.Covers text ∧
        Template.substitute text reached p.escapes = value) := by
  rw [settle]
  cases hreached : reached.get? name with
  | some old =>
    have hmem : name ∈ reached.keys := OrderedMap.exists_get?_iff.mp ⟨old, hreached⟩
    simp [hmem]
  | none =>
    have hmem : name ∉ reached.keys := OrderedMap.get?_eq_none_iff.mp hreached
    cases hgiven : p.given.get? name with
    | none => simp
    | some text =>
      have hmissing : (RawVariable.missing ⟨name, text⟩ reached).isEmpty = true ↔
          reached.Covers text := by
        rw [List.isEmpty_iff, RawVariable.missing_eq_nil_iff]
        exact forall_congr' fun other => imp_congr_left Template.mem_dependencies
      by_cases hcovers : reached.Covers text
      · simp [hmissing.mpr hcovers, hcovers, hmem, RawVariable.expand]
      · have hnot := mt hmissing.mp hcovers
        simp [hnot, hcovers]

/-- A name whose text is covered can be settled. -/
theorem exists_settle {name text : String} (hget : p.given.get? name = some text)
    (hcovers : reached.Covers text) : ∃ value, p.settle reached name = .ok value := by
  by_cases hmem : name ∈ reached.keys
  · obtain ⟨value, hvalue⟩ := OrderedMap.exists_get?_iff.mpr hmem
    exact ⟨value, settle_of_get? hvalue⟩
  · exact ⟨_, settle_eq_ok_iff.mpr (Or.inr ⟨hmem, text, hget, hcovers, rfl⟩)⟩

/-- A text that the values cover is written the same when a new name gets a value. -/
theorem substitute_insert {name text value : String} {mode : EscapeMode}
    (hcovers : reached.Covers text) (hnew : name ∉ reached.keys) :
    Template.substitute text (reached.insert name value) mode =
      Template.substitute text reached mode := by
  refine Template.substitute_congr fun other hother => ?_
  have hne : other ≠ name := by
    rintro rfl
    exact hnew (hcovers other hother)
  rw [OrderedMap.get?_insert, if_neg hne]

theorem Settled.insert {name value : String} (h : p.Settled reached)
    (hsettle : p.settle reached name = .ok value) : p.Settled (reached.insert name value) := by
  rcases settle_eq_ok_iff.mp hsettle with hold | ⟨hnew, text, hget, hcovers, hvalue⟩
  -- A name that has a value keeps it, and nothing changes.
  · rwa [OrderedMap.insert_of_get? hold]
  -- No text written before refers to the new name, so each is written now as it was then.
  · have hmono : ∀ {text}, reached.Covers text →
        Variables.Covers (reached.insert name value) text := fun hcovers other hother =>
      OrderedMap.mem_keys_insert.mpr (Or.inr (hcovers other hother))
    intro other final hfinal
    rw [OrderedMap.get?_insert] at hfinal
    split at hfinal
    · next heq =>
      subst heq
      refine ⟨text, hget, hmono hcovers, ?_⟩
      rw [substitute_insert hcovers hnew, hvalue]
      exact Option.some.inj hfinal
    · obtain ⟨text', hget', hcovers', hvalue'⟩ := h other final hfinal
      refine ⟨text', hget', hmono hcovers', ?_⟩
      rw [substitute_insert hcovers' hnew, hvalue']

/-! ### The whole walk -/

theorem walk_cons_eq_ok_iff {name : String} :
    p.walk reached (name :: names) = .ok values ↔
      ∃ value, p.settle reached name = .ok value ∧
        p.walk (reached.insert name value) names = .ok values := by
  rw [walk_cons]
  cases p.settle reached name with
  | error cause => simp
  | ok value => simp

/-- A walk keeps values final. -/
theorem Settled.walk (h : p.Settled reached) (hwalk : p.walk reached names = .ok values) :
    p.Settled values := by
  induction names generalizing reached with
  | nil => rwa [← Except.ok.inj hwalk]
  | cons name rest ih =>
    obtain ⟨value, hsettle, hrest⟩ := walk_cons_eq_ok_iff.mp hwalk
    exact ih (h.insert hsettle) hrest

/-- A walk puts the new names of its list behind the keys that it starts with. -/
theorem keys_walk (hnodup : names.Nodup) (hwalk : p.walk reached names = .ok values) :
    values.keys = reached.keys ++ names.filter fun name => decide (name ∉ reached.keys) := by
  induction names generalizing reached with
  | nil => rw [← Except.ok.inj hwalk, List.filter_nil, List.append_nil]
  | cons name rest ih =>
    obtain ⟨value, -, hrest⟩ := walk_cons_eq_ok_iff.mp hwalk
    obtain ⟨hnot, hnodup'⟩ := List.nodup_cons.mp hnodup
    rw [ih hnodup' hrest, OrderedMap.keys_insert]
    -- A name that is there already is neither added nor counted as new.
    by_cases hmem : name ∈ reached.keys
    · rw [if_pos hmem, List.filter_cons_of_neg (by simpa using hmem)]
    · have hrest' : (rest.filter fun other => decide (other ∉ reached.keys ++ [name])) =
          rest.filter fun other => decide (other ∉ reached.keys) := by
        refine List.filter_congr fun other hother => ?_
        have hne : other ≠ name := fun heq => hnot (heq ▸ hother)
        simp [hne]
      rw [if_neg hmem, hrest', List.filter_cons_of_pos (by simpa using hmem), List.append_assoc,
        List.singleton_append]

theorem mem_keys_walk (hnodup : names.Nodup) (hwalk : p.walk reached names = .ok values)
    {name : String} : name ∈ values.keys ↔ name ∈ reached.keys ∨ name ∈ names := by
  rw [keys_walk hnodup hwalk, List.mem_append, List.mem_filter, decide_eq_true_eq]
  by_cases hmem : name ∈ reached.keys
  · simp [hmem]
  · simp [hmem]

/-- A walk over names that all have values changes nothing. -/
theorem walk_of_subset_keys (h : ∀ name ∈ names, name ∈ reached.keys) :
    p.walk reached names = .ok reached := by
  induction names with
  | nil => rfl
  | cons name rest ih =>
    obtain ⟨value, hvalue⟩ := OrderedMap.exists_get?_iff.mpr (h name List.mem_cons_self)
    rw [walk_cons_eq_ok_iff]
    refine ⟨value, settle_of_get? hvalue, ?_⟩
    rw [OrderedMap.insert_of_get? hvalue]
    exact ih fun other hmem => h other (List.mem_cons_of_mem _ hmem)

/-- A walk over two lists goes over the second from where the first has led. -/
theorem walk_append_eq_ok_iff {first second : List String} :
    p.walk reached (first ++ second) = .ok values ↔
      ∃ middle, p.walk reached first = .ok middle ∧ p.walk middle second = .ok values := by
  induction first generalizing reached with
  | nil => simp
  | cons name rest ih =>
    rw [List.cons_append, walk_cons_eq_ok_iff]
    simp only [ih, walk_cons_eq_ok_iff]
    constructor
    · rintro ⟨value, hsettle, middle, hrest, hsecond⟩
      exact ⟨middle, ⟨value, hsettle, hrest⟩, hsecond⟩
    · rintro ⟨middle, ⟨value, hsettle, hrest⟩, hsecond⟩
      exact ⟨value, hsettle, middle, hrest, hsecond⟩

/-- A walk that gets to its end begins with a value, of which its first event tells. -/
theorem exists_walkEvents_cons {name : String} (index : Nat)
    (hwalk : p.walk reached (name :: names) = .ok values) :
    ∃ value, p.walk (reached.insert name value) names = .ok values ∧
      p.walkEvents index reached (name :: names) = .resolved index name value ::
        p.walkEvents (index + 1) (reached.insert name value) names := by
  obtain ⟨value, hsettle, hrest⟩ := walk_cons_eq_ok_iff.mp hwalk
  exact ⟨value, hrest, by rw [walkEvents_cons, hsettle]⟩

/-- The events of a walk that gets to its end tell of no failure. -/
theorem failed_notMem_walkEvents {index : Nat} (hwalk : p.walk reached names = .ok values)
    (name : String) : Event.failed name ∉ p.walkEvents index reached names := by
  induction names generalizing reached index with
  | nil => simp
  | cons first rest ih =>
    obtain ⟨value, hrest, hevents⟩ := exists_walkEvents_cons index hwalk
    rw [hevents]
    simpa using ih hrest

/-! ### The walk along an order -/

/-- Seeded values are final. -/
theorem settled_seeded (p : Plan) : p.Settled p.seeded := by
  intro name value hvalue
  obtain ⟨text, hget, hexpanded, hsubst⟩ := get?_seeded_eq_some_iff.mp hvalue
  refine ⟨text, hget, ?_, ?_⟩
  · intro other hother
    exact absurd hother (Template.isExpanded_iff_references.mp hexpanded other)
  · rw [← hsubst]
    exact Template.substitute_of_isExpanded hexpanded

/-- When the turn of a name comes, it has a text, and what the text refers to has values. -/
theorem covers_of_walk {before after : List String} {name : String}
    (h : p.order = .ok (before ++ name :: after)) (hwalk : p.walk p.seeded before = .ok reached) :
    ∃ text, p.given.get? name = some text ∧ reached.Covers text := by
  have hname : name ∈ p.given.keys := (perm_of_order h).mem_iff.mp (by simp)
  obtain ⟨text, hget⟩ := OrderedMap.exists_get?_iff.mpr hname
  refine ⟨text, hget, fun other hother => ?_⟩
  rw [mem_keys_walk (nodup_of_order h).of_append_left hwalk]
  exact Or.inr (references_before h hget hother)

/-- Along an order, every name gets a value. -/
theorem exists_walk_of_order (h : p.order = .ok names) :
    ∃ values, p.walk p.seeded names = .ok values := by
  suffices hprefix : ∀ before after, names = before ++ after →
      ∃ values, p.walk p.seeded before = .ok values from hprefix names [] (by simp)
  -- By induction on the part of the order that has been walked: its names have values by then.
  intro before
  induction before using List.reverseRecOn with
  | nil => exact fun _ _ => ⟨p.seeded, rfl⟩
  | append_singleton before name ih =>
    intro after hnames
    rw [List.append_assoc, List.singleton_append] at hnames
    obtain ⟨middle, hmiddle⟩ := ih _ hnames
    obtain ⟨text, hget, hcovers⟩ := covers_of_walk (hnames ▸ h) hmiddle
    obtain ⟨value, hsettle⟩ := exists_settle hget hcovers
    refine ⟨middle.insert name value, walk_append_eq_ok_iff.mpr ⟨middle, hmiddle, ?_⟩⟩
    exact walk_cons_eq_ok_iff.mpr ⟨value, hsettle, rfl⟩

/-! ### The whole expansion -/

theorem expand_eq_ok_iff :
    p.expand = .ok values ↔
      ∃ names, p.order = .ok names ∧ p.walk p.seeded names = .ok values := by
  rw [expand]
  cases p.order with
  | error stall => simp
  | ok names => simp

/-- An expansion fails only for want of an order, and then keeps the seeded values. -/
theorem expand_eq_error_iff {failure : Failure} :
    p.expand = .error failure ↔
      ∃ stall, p.order = .error stall ∧ failure = ⟨.stalled stall, p.seeded⟩ := by
  rw [expand]
  cases horder : p.order with
  | error stall => simp [eq_comm]
  | ok names =>
    obtain ⟨values, hvalues⟩ := exists_walk_of_order horder
    simp [hvalues]

/-- An expansion that fails reports the stall of the ordering. -/
theorem order_of_expand_error {failure : Failure} {stall : Graph.Stall}
    (h : p.expand = .error failure) (hcause : failure.cause = .stalled stall) :
    p.order = .error stall := by
  obtain ⟨found, horder, rfl⟩ := expand_eq_error_iff.mp h
  rwa [← Cause.stalled.inj hcause]

/-- An expansion succeeds exactly when there is an order. -/
theorem exists_expand_iff : (∃ values, p.expand = .ok values) ↔ ∃ names, p.order = .ok names := by
  constructor
  · rintro ⟨values, h⟩
    obtain ⟨names, horder, -⟩ := expand_eq_ok_iff.mp h
    exact ⟨names, horder⟩
  · rintro ⟨names, horder⟩
    obtain ⟨values, hwalk⟩ := exists_walk_of_order horder
    exact ⟨values, expand_eq_ok_iff.mpr ⟨names, horder, hwalk⟩⟩

end Plan

end Interpolation
