import Interpolation.Proofs.Document.RoundTrip
import Interpolation.Proofs.Sources.Documents

/-!
# Keys of documents

Whatever form a document has, its keys are words of one character at least: a line of assignments
has a key that is not empty, and so has an attribute of the HCL form, whose key is a name. So no
document gives a value to the empty name.

## Main results

* `Hcl.Reader.forall_mem_of_collect` — what holds of each value that a step takes holds of all that
  a repetition takes.
* `Hcl.empty_notMem_keys`, `Dotenv.empty_notMem_keys` — no document has the empty key.
* `Source.empty_notMem_keys` — no file does.
-/

namespace Interpolation

/-! ### Attributes -/

namespace Hcl

namespace Reader

variable {α : Type} {P : α → Prop} {step : Reader (Option α)}

/-- What holds of each value that a step takes holds of all that a bounded repetition takes. -/
theorem forall_mem_of_collectAtMost
    (hstep : ∀ start value cursor, step start = .ok (some value, cursor) → P value) {count : Nat}
    {start cursor : Cursor} {values : List α}
    (h : collectAtMost step count start = .ok (values, cursor)) : ∀ value ∈ values, P value := by
  induction count generalizing start values with
  | zero => cases h
  | succ count ih =>
    obtain ⟨found, after, hfound, hrest⟩ := run_bind_eq_ok.mp h
    cases found with
    | none =>
      cases hrest
      simp
    | some value =>
      obtain ⟨others, later, hothers, hvalues⟩ := run_bind_eq_ok.mp hrest
      cases hvalues
      intro other hmem
      rcases List.mem_cons.mp hmem with rfl | hmem
      · exact hstep _ _ _ hfound
      · exact ih hothers other hmem

theorem forall_mem_of_collect
    (hstep : ∀ start value cursor, step start = .ok (some value, cursor) → P value)
    {start cursor : Cursor} {values : List α} (h : collect step start = .ok (values, cursor)) :
    ∀ value ∈ values, P value := by
  rw [collect, run_bind, run_ahead] at h
  exact forall_mem_of_collectAtMost hstep h

/-- A structure is not an attribute of the empty key. -/
theorem key?_ne_of_structureOn {nested : Reader Body} {start cursor : Cursor}
    {taken : Structure} (h : structureOn nested start = .ok (taken, cursor)) :
    taken.key? ≠ some "" := by
  obtain ⟨key, afterKey, hkey, hskip⟩ := run_bind_eq_ok.mp h
  obtain ⟨-, afterBlank, -, hstarts⟩ := run_bind_eq_ok.mp hskip
  obtain ⟨equals, later, -, hrest⟩ := run_bind_eq_ok.mp hstarts
  have hne : key ≠ "" := ne_empty_of_name hkey
  cases equals with
  | true =>
    obtain ⟨value, last, -, htaken⟩ := run_bind_eq_ok.mp hrest
    cases htaken
    simpa [Structure.key?] using hne
  | false =>
    obtain ⟨-, last, -, htaken⟩ := run_bind_eq_ok.mp hrest
    cases htaken
    simp [Structure.key?]

/-- No structure of a body is an attribute of the empty key. -/
theorem key?_ne_of_bodyOf {nested : Reader Body} {start cursor : Cursor} {body : Body}
    (h : bodyOf nested start = .ok (body, cursor)) : ∀ taken ∈ body, taken.key? ≠ some "" := by
  obtain ⟨collected, after, hcollect, hdistinct⟩ := run_bind_eq_ok.mp h
  obtain ⟨-, later, -, hbody⟩ := run_bind_eq_ok.mp hdistinct
  cases hbody
  refine forall_mem_of_collect (fun start taken cursor hstep => ?_) hcollect
  obtain ⟨-, afterBlank, -, hahead⟩ := run_bind_eq_ok.mp hstep
  obtain ⟨cs, _, -, hstarts⟩ := run_bind_eq_ok.mp hahead
  obtain ⟨closing, _, -, hchoice⟩ := run_bind_eq_ok.mp hstarts
  split at hchoice
  · cases hchoice
  · obtain ⟨value, afterValue, hstructure, hinline⟩ := run_bind_eq_ok.mp hchoice
    obtain ⟨-, _, -, hcomment⟩ := run_bind_eq_ok.mp hinline
    obtain ⟨-, _, -, hend⟩ := run_bind_eq_ok.mp hcomment
    obtain ⟨-, _, -, hreturn⟩ := run_bind_eq_ok.mp hend
    cases hreturn
    exact key?_ne_of_structureOn hstructure

end Reader

theorem key?_ne_of_parse? {text : String} {body : Body} (h : Body.parse? text = some body) :
    ∀ taken ∈ body, taken.key? ≠ some "" := by
  rw [Body.parse?, Reader.readAll] at h
  split at h
  · next found cursor hread =>
    cases h
    obtain ⟨cs, start, -, hdepth⟩ := Reader.run_bind_eq_ok.mp hread
    exact Reader.key?_ne_of_bodyOf hdepth
  · cases h

theorem mem_keys_of_setStructure {vars result : Variables} {taken : Structure}
    (h : setStructure vars taken = .ok result) {name : String} (hname : name ∈ result.keys) :
    name ∈ vars.keys ∨ taken.key? = some name := by
  rcases taken with ⟨key, value⟩ | identifier
  · rw [setStructure] at h
    split at h
    · next text htext =>
      cases h
      refine (OrderedMap.mem_keys_insert.mp hname).symm.imp_right fun heq => ?_
      rw [Structure.key?, heq]
    · cases h
  · cases h

/-- The keys of a body are those of its attributes. -/
theorem mem_keys_of_foldlM {vars result : Variables} {body : Body}
    (h : body.foldlM setStructure vars = .ok result) {name : String} (hname : name ∈ result.keys) :
    name ∈ vars.keys ∨ ∃ taken ∈ body, taken.key? = some name := by
  induction body generalizing vars with
  | nil =>
    cases h
    exact Or.inl hname
  | cons taken rest ih =>
    rw [List.foldlM_cons] at h
    cases hset : setStructure vars taken with
    | error fault =>
      rw [hset] at h
      cases h
    | ok later =>
      rw [hset] at h
      rcases ih h with hlater | ⟨other, hother, hkey⟩
      · exact (mem_keys_of_setStructure hset hlater).imp_right fun hkey =>
          ⟨taken, List.mem_cons_self, hkey⟩
      · exact Or.inr ⟨other, List.mem_cons_of_mem _ hother, hkey⟩

/-- No document of attributes has the empty key. -/
theorem empty_notMem_keys {text : String} {vars : Variables} (h : read text = .ok vars) :
    "" ∉ vars.keys := by
  rw [read] at h
  split at h
  · next body hbody =>
    intro hmem
    rcases mem_keys_of_foldlM h hmem with hnone | ⟨taken, htaken, hkey⟩
    · simp at hnone
    · exact key?_ne_of_parse? hbody taken htaken hkey
  · cases h

end Hcl

/-! ### Lines -/

/-- No document of lines has the empty key. -/
theorem Dotenv.empty_notMem_keys {text : String} {vars : Variables} (h : read text = .ok vars) :
    "" ∉ vars.keys := by
  intro hmem
  obtain ⟨value, hget⟩ := OrderedMap.exists_get?_iff.mpr hmem
  have hkey := (isKey_and_newline_notMem_of_read h hget).1
  exact (isKey_iff.mp hkey).1 rfl

/-! ### Files -/

theorem empty_notMem_keys_of_readDocument {name text : String} {vars : Variables}
    (h : readDocument name text = .ok vars) : "" ∉ vars.keys := by
  rw [readDocument] at h
  split at h
  · exact Hcl.empty_notMem_keys h
  · exact Dotenv.empty_notMem_keys h

/-- No document of a file has the empty key. -/
theorem Source.empty_notMem_keys {tree : FileTree} {location : Location} {document : Source}
    (h : Source.read tree location = .ok document) : "" ∉ document.content.keys := by
  rw [Source.read] at h
  split at h
  · cases h
  · split at h
    · cases h
    · next content hcontent =>
      cases h
      exact empty_notMem_keys_of_readDocument hcontent

namespace FileTree

variable {tree : FileTree} {start : Location} {path : String}

/-- No file that a path leads to has the empty key. -/
theorem HasDocument.empty_notMem_keys {document : Source}
    (h : tree.HasDocument start path document) : "" ∉ document.content.keys := by
  obtain ⟨location, -, hread⟩ := h
  exact Source.empty_notMem_keys hread

/-- No file in a directory has the empty key. -/
theorem HasDocuments.empty_notMem_keys {documents : List Source}
    (h : tree.HasDocuments start path documents) :
    ∀ document ∈ documents, "" ∉ document.content.keys := by
  obtain ⟨location, entries, names, -, -, -, -, -, hread⟩ := h
  intro document hmem
  obtain ⟨name, -, hdocument⟩ := exists_of_mem_right hread hmem
  exact Source.empty_notMem_keys hdocument

end FileTree

end Interpolation
