import HeapShape.Proofs.Json.Text
import HeapShape.Proofs.Yaml.Text

/-
  Configurations through YAML text.

  A configuration may be written in part. What is left out has its default
  after reading. The result is checked, so a setting outside its range is
  still refused.

  Main declarations:
    * `Yaml.fields?_only`
    * `Config.ofYaml?_excerpt`
    * `written_config_is_read`
-/

-- Values

namespace HeapShape

open Yaml

namespace Yaml

variable {α : Type} {n bound depth : Nat}

theorem digitValue_of_isDigit
    {c : Char}
    (hc : c.isDigit = true) :
    digitValue c = c.toNat - '0'.toNat ∧ digitValue c < 10 := by
  simp only [Char.isDigit, Bool.and_eq_true, decide_eq_true_eq] at hc
  have hRange : '0' ≤ c ∧ c ≤ '9' := hc
  have hMost : c.toNat ≤ 57 := hc.2
  rw [digitValue, if_pos hRange]
  refine ⟨rfl, ?_⟩
  change c.toNat - 48 < 10
  omega

/- Digits are read as the number they stand for. -/
theorem digits?_ten
    {cs : List Char}
    (hcs : ∀ c ∈ cs, c.isDigit = true)
    (hNil : cs ≠ []) :
    digits? 10 cs = some (Nat.ofDigitChars 10 cs 0) := by
  have hAny : (cs.any fun c => 10 ≤ digitValue c) = false := by
    rw [List.any_eq_false]
    intro c hMem
    simpa using (digitValue_of_isDigit (hcs c hMem)).2
  have hFold : ∀ k, cs.foldl (fun n c => 10 * n + digitValue c) k = Nat.ofDigitChars 10 cs k := by
    clear hNil hAny
    induction cs with
    | nil => exact fun _ => rfl
    | cons c cs ih =>
      intro k
      have hc := hcs c (List.mem_cons_self ..)
      rw [List.foldl_cons, (digitValue_of_isDigit hc).1]
      exact ih (fun c hMem => hcs c (List.mem_cons_of_mem _ hMem)) _
  simp [digits?, hAny, hNil, hFold]

/- A written number is read back. -/
theorem natural?_ofNat
    (hn : n < bound) :
    natural? bound (ofNat n) = some n := by
  have hDigits : ∀ c ∈ Nat.toDigits 10 n, c.isDigit = true :=
    fun _ => Json.isDigit_of_toDigits
  have hValue := Nat.ofDigitChars_ten_toDigits (n := n)
  rcases Json.toDigits_head n with ⟨d, ds, hText, hZero⟩
  have hRead := digits?_ten hDigits (by simp [hText])
  rw [hValue, hText] at hRead
  have hPlus : d ≠ '+' := Json.ne_of_isDigit (hDigits d (by simp [hText])) rfl
  have hNumeral : numeral? (d :: ds) = some n := by
    rcases ds with _ | ⟨e, ds⟩
    · simp [numeral?, decimal?, hPlus, hRead]
    · have hFirst : d ≠ '0' := fun hd => by cases hZero hd
      simp [numeral?, decimal?, hPlus, hFirst, hRead]
  simp [ofNat, word, natural?, hText, hNumeral, hn]

theorem readsValue_ofNat :
    ReadsValue depth (ofNat n) := by
  refine IsLeaf.readsValue (.inl ⟨_, rfl, ?_⟩) depth
  rw [Nat.toString_eq_ofList_toDigits, String.toList_ofList]
  refine ⟨Nat.toDigits_ne_nil, fun c hMem => ?_⟩
  simp [isWordChar, Char.isAlphanum, Json.isDigit_of_toDigits hMem]

theorem bool?_ofBool
    (b : Bool) :
    bool? (ofBool b) = some b := by
  cases b <;> decide

theorem readsValue_ofBool
    {b : Bool} :
    ReadsValue depth (ofBool b) :=
  IsLeaf.readsValue (.inl ⟨_, rfl, by cases b <;> decide⟩) depth

-- Chosen Entries

/- The entries of a mapping with a chosen name. -/
def only
    (keep : String → Bool) : Yaml → Yaml
| map entries => map <| entries.filter fun e =>
    match e.1 with
    | scalar _ name => keep name
    | _ => true
| y => y

variable {keep : String → Bool} {fields : List (String × Yaml)}

theorem only_record :
    (record fields).only keep = record (fields.filter fun e => keep e.1) := by
  simp [only, record, List.filter_map, Function.comp_def, word]

theorem namedEntries?_entries :
    namedEntries? (entries fields) = some fields := by
  induction fields with
  | nil => rfl
  | cons e fields ih =>
    simp only [entries, word] at ih
    simp [entries, namedEntries?, word, ih]

/- A name that is there once has its value if it is kept. -/
theorem single?_filter
    {e : String × Yaml}
    (hNodup : (fields.map Prod.fst).Nodup)
    (he : e ∈ fields) :
    single? (fields.filter fun e => keep e.1) e.1 =
      some (if keep e.1 then some e.2 else none) := by
  have hOnly : fields.filter (fun x => x.1 == e.1) = [e] := by
    induction fields with
    | nil => cases he
    | cons x fields ih =>
      rw [List.map_cons, List.nodup_cons] at hNodup
      rcases List.mem_cons.mp he with rfl | he
      · have hNone : fields.filter (fun x => x.1 == e.1) = [] :=
          List.filter_eq_nil_iff.mpr fun x hx hEq =>
            hNodup.1 (eq_of_beq hEq ▸ List.mem_map_of_mem hx)
        simp [hNone]
      · have hx : x.1 ≠ e.1 := fun hEq =>
          hNodup.1 (hEq ▸ List.mem_map_of_mem he)
        simp [hx, ih hNodup.2 he]
  rw [single?, List.filter_filter]
  simp only [Bool.and_comm (_ == _)]
  rw [← List.filter_filter, hOnly]
  cases hKeep : keep e.1 <;> simp [hKeep]

/- The values that are read are those that were chosen. -/
theorem fields?_only
    (hNodup : (fields.map Prod.fst).Nodup) :
    ((record fields).only keep).fields? (fields.map Prod.fst) = some (fields.map fun e =>
        if keep e.1 then some e.2 else none) := by
  have hEach : ∀ part ⊆ fields, (part.map Prod.fst).mapM
          (single? (fields.filter fun e => keep e.1)) =
        some (part.map fun e =>
          if keep e.1 then some e.2 else none) := by
    intro part hPart
    induction part with
    | nil => rfl
    | cons e part ih =>
      rw [List.cons_subset] at hPart
      simp [List.mapM_cons, single?_filter hNodup hPart.1, ih hPart.2]
  rw [only_record]
  simp only [fields?, record, entries?]
  exact (congrArg (Option.bind · _) namedEntries?_entries).trans (hEach fields (List.Subset.refl _))

/- A chosen value or the default. -/
theorem defaulted_of_read
    {d v : α}
    {b : Bool}
    {read : Yaml → Option α}
    {y : Yaml}
    (hRead : read y = some v) :
    defaulted d read (if b then some y else none) = some (if b then v else d) := by
  cases b
  · rfl
  · exact hRead

end Yaml

-- Excerpts

/- Values under names that can be keys, all or some. -/
theorem Yaml.readable_only
    {keep : String → Bool}
    {depth : Nat}
    {fields : List (String × Yaml)}
    (hNames : ∀ name ∈ fields.map Prod.fst, IsKey name.toList)
    (hValues : ∀ y ∈ fields.map Prod.snd, ReadsValue depth y) :
    Readable depth (fields.filter fun e => keep e.1) := by
  intro e he
  have hMem := (List.mem_filter.mp he).1
  exact ⟨hNames e.1 (List.mem_map_of_mem hMem), hValues e.2 (List.mem_map_of_mem hMem)⟩

/- A value that is written, or the default. -/
def Config.kept
    {α : Type}
    (keep : String → Bool)
    (name : String)
    (written d : α) : α :=
  if keep name then written else d

open Config (kept)

variable {keep : String → Bool}

namespace GraphConfig

variable {c : GraphConfig}

/- Graph settings of which only some are written. -/
def restrict
    (keep : String → Bool)
    (c : GraphConfig) : GraphConfig :=
  let d : GraphConfig := {}
  { typeAwareFields := kept keep "type_aware_fields" c.typeAwareFields d.typeAwareFields
    pointerSize := kept keep "pointer_size" c.pointerSize d.pointerSize }

theorem ofYaml?_only
    (hSize : c.pointerSize < 1 <<< 32) :
    ofYaml? (c.toYaml.only keep) = some (c.restrict keep) := by
  have hFields : (c.toYaml.only keep).fields? fieldNames = some _ :=
    fields?_only (show fieldNames.Nodup by decide)
  simp only [ofYaml?, hFields, List.map_cons, List.map_nil, defaulted_of_read (bool?_ofBool _),
    defaulted_of_read (natural?_ofNat hSize),
    Option.bind_eq_bind, Option.bind_some]
  rfl

theorem readsValue_only :
    ReadsValue 0 (c.toYaml.only keep) := by
  rw [toYaml, only_record]
  exact Readable.readsValue (readable_only (show ∀ name ∈ fieldNames, IsKey name.toList by decide)
    (by simp [readsValue_ofBool, readsValue_ofNat]))

end GraphConfig

namespace CloningPolicy

variable {c : CloningPolicy}

/- A cloning policy of which only some is written. -/
def restrict
    (keep : String → Bool)
    (c : CloningPolicy) : CloningPolicy :=
  let d : CloningPolicy := {}
  { stripAllocas := kept keep "strip_allocas" c.stripAllocas d.stripAllocas
    trackCallPaths := kept keep "track_call_paths" c.trackCallPaths d.trackCallPaths
    noEscape := kept keep "no_escape" c.noEscape d.noEscape
    skipUnusedGlobals := kept keep "skip_unused_globals" c.skipUnusedGlobals d.skipUnusedGlobals
    pruneForeign := kept keep "prune_foreign" c.pruneForeign d.pruneForeign }

theorem ofYaml?_only :
    ofYaml? (c.toYaml.only keep) = some (c.restrict keep) := by
  have hFields : (c.toYaml.only keep).fields? fieldNames = some _ :=
    fields?_only (show fieldNames.Nodup by decide)
  simp only [ofYaml?, hFields, List.map_cons, List.map_nil, defaulted_of_read (bool?_ofBool _),
    Option.bind_eq_bind, Option.bind_some]
  rfl

theorem readsValue_only :
    ReadsValue 0 (c.toYaml.only keep) := by
  rw [toYaml, only_record]
  exact Readable.readsValue (readable_only (show ∀ name ∈ fieldNames, IsKey name.toList by decide)
    (by simp [readsValue_ofBool]))

end CloningPolicy

namespace FixpointConfig

variable {c : FixpointConfig}

/- Fixpoint settings of which only some are written. -/
def restrict
    (keep : String → Bool)
    (c : FixpointConfig) : FixpointConfig :=
  let d : FixpointConfig := {}
  { onlyModifiedInjectivity :=
      kept keep "only_modified_injectivity" c.onlyModifiedInjectivity d.onlyModifiedInjectivity
    maxIterations := kept keep "max_iterations" c.maxIterations d.maxIterations
    uniqueScalarClosure :=
      kept keep "unique_scalar_closure" c.uniqueScalarClosure d.uniqueScalarClosure
    allocSiteClosure := kept keep "alloc_site_closure" c.allocSiteClosure d.allocSiteClosure
    checkPostcondition := kept keep "check_postcondition" c.checkPostcondition d.checkPostcondition }

theorem ofYaml?_only
    (hMost : c.maxIterations < 1 <<< 64) :
    ofYaml? (c.toYaml.only keep) = some (c.restrict keep) := by
  have hFields : (c.toYaml.only keep).fields? fieldNames = some _ :=
    fields?_only (show fieldNames.Nodup by decide)
  simp only [ofYaml?, hFields, List.map_cons, List.map_nil, defaulted_of_read (bool?_ofBool _),
    defaulted_of_read (natural?_ofNat hMost),
    Option.bind_eq_bind, Option.bind_some]
  rfl

theorem readsValue_only :
    ReadsValue 0 (c.toYaml.only keep) := by
  rw [toYaml, only_record]
  exact Readable.readsValue (readable_only (show ∀ name ∈ fieldNames, IsKey name.toList by decide)
    (by simp [readsValue_ofBool, readsValue_ofNat]))

end FixpointConfig

namespace AnalysisKind

theorem choice?_name
    (k : AnalysisKind) :
    choice? ofName? (word k.name) = some k := by
  cases k <;> decide

theorem readsValue_name
    {k : AnalysisKind} :
    ReadsValue 0 (word k.name) :=
  IsLeaf.readsValue (.inl ⟨_, rfl, by cases k <;> decide⟩) 0

end AnalysisKind

-- Whole Configurations

namespace Config

variable {c : Config}

/- A document with some fields of a configuration. -/
def excerpt
    (keep : String → Bool)
    (c : Config) : Yaml :=
  only keep <| record [
    ("kind", word c.kind.name),
    ("graph", c.graph.toYaml.only keep),
    ("cloning", c.cloning.toYaml.only keep),
    ("fixpoint", c.fixpoint.toYaml.only keep)]

/- A configuration of which only some is written. -/
def restrict
    (keep : String → Bool)
    (c : Config) : Config :=
  let d : Config := {}
  { kind := kept keep "kind" c.kind d.kind
    graph := kept keep "graph" (c.graph.restrict keep) d.graph
    cloning := kept keep "cloning" (c.cloning.restrict keep) d.cloning
    fixpoint := kept keep "fixpoint" (c.fixpoint.restrict keep) d.fixpoint }

theorem ofYaml?_excerpt
    (hSize : c.graph.pointerSize < 1 <<< 32)
    (hMost : c.fixpoint.maxIterations < 1 <<< 64) :
    ofYaml? (c.excerpt keep) = some (c.restrict keep) := by
  have hFields : (c.excerpt keep).fields? fieldNames = some _ :=
    fields?_only (show fieldNames.Nodup by decide)
  simp only [ofYaml?, hFields, List.map_cons, List.map_nil, defaulted_of_read c.kind.choice?_name,
    defaulted_of_read (GraphConfig.ofYaml?_only hSize),
    defaulted_of_read CloningPolicy.ofYaml?_only,
    defaulted_of_read (FixpointConfig.ofYaml?_only hMost),
    Option.bind_eq_bind, Option.bind_some]
  rfl

/- The text of an excerpt holds the document. -/
theorem parse?_excerpt :
    parse? (c.excerpt keep).render = some (c.excerpt keep) := by
  rw [excerpt, only_record]
  exact Readable.parse?_render (readable_only
    (show ∀ name ∈ fieldNames, IsKey name.toList by decide)
    (by simp [AnalysisKind.readsValue_name, GraphConfig.readsValue_only,
      CloningPolicy.readsValue_only,
      FixpointConfig.readsValue_only]))

theorem read_excerpt
    (hSize : c.graph.pointerSize < 1 <<< 32)
    (hMost : c.fixpoint.maxIterations < 1 <<< 64) :
    read (c.excerpt keep).render = do
      (c.restrict keep).validate
      return c.restrict keep := by
  rw [read, parse?_excerpt, Option.bind_some, ofYaml?_excerpt hSize hMost]

end Config

/-
  A configuration is read back from its text if it is valid, and else the
  first setting outside its range is named. Of a text with some of the
  fields, the others have their defaults.
-/
theorem written_config_is_read
    (c : Config)
    (hSize : c.graph.pointerSize < 1 <<< 32)
    (hMost : c.fixpoint.maxIterations < 1 <<< 64) :
    Config.read c.write = (
      if ¬ (1 ≤ c.graph.pointerSize ∧ c.graph.pointerSize ≤ 16) then
        .error (.range "pointer_size" c.graph.pointerSize 1 16 "Pointer width is measured in bytes")
      else if 100000000 < c.fixpoint.maxIterations then
        .error (.range "max_iterations" c.fixpoint.maxIterations 0 100000000
          "Use 0 for an unbounded fixpoint")
      else
        .ok c) ∧
    ∀ keep, Config.read (c.excerpt keep).render = do
      (c.restrict keep).validate
      return c.restrict keep := by
  refine ⟨?_, fun keep => Config.read_excerpt hSize hMost⟩
  have hAll : c.write = (c.excerpt fun _ => true).render := rfl
  have hSame : c.restrict (fun _ => true) = c := rfl
  rw [hAll, Config.read_excerpt hSize hMost, hSame]
  simp only [Config.validate, GraphConfig.validate, FixpointConfig.validate]
  by_cases hRange :
    1 ≤ c.graph.pointerSize ∧ c.graph.pointerSize ≤ 16
  · rw [if_pos hRange, if_neg (not_not_intro hRange)]
    by_cases hLess : c.fixpoint.maxIterations ≤ 100000000
    · rw [if_pos hLess, if_neg (Nat.not_lt.mpr hLess)]
      rfl
    · rw [if_neg hLess, if_pos (Nat.lt_of_not_le hLess)]
      rfl
  · rw [if_neg hRange, if_pos hRange]
    rfl

/- A pointer size outside its range. -/
def Config.widePointers : Config where
  graph := { pointerSize := 17 }

theorem written_config_is_read_of_widePointers :
    Config.read Config.widePointers.write = .error
        (.range "pointer_size" 17 1 16 "Pointer width is measured in bytes") ∧
      Config.read (Config.widePointers.excerpt (· != "pointer_size")).render = .ok {} := by
  have hRead := written_config_is_read Config.widePointers (by decide) (by decide)
  exact ⟨hRead.1, hRead.2 _⟩

end HeapShape
