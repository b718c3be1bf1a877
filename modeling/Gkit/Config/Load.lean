import Gkit.Config.EnvFile

/-!
# What `Load` does to a struct

A leaf fails if it is required and has no text, or if its text does not parse.
`Load` sets every other leaf from its text, whatever fails beside it, and names the
variable of every leaf that fails.  The induction is on the tree of fields.
-/

namespace Gkit.Config

open Gkit.Lib

variable {ν : Type} (parsers : Parsers ν)

/-! ## Leaves -/

namespace Fields

def leaves : Fields ν → List Leaf
  | .nil => []
  | .leaf l _ rest => l :: rest.leaves
  | .struct inner rest => inner.leaves ++ rest.leaves

/-- The same struct with other values in its leaves. -/
def mapLeaves (f : Leaf → Val ν → Val ν) : Fields ν → Fields ν
  | .nil => .nil
  | .leaf l value rest => .leaf l (f l value) (rest.mapLeaves f)
  | .struct inner rest => .struct (inner.mapLeaves f) (rest.mapLeaves f)

end Fields

/-- The value the text of a leaf stands for. -/
def parsedValue (env : Env) (l : Leaf) : Option (Val ν) :=
  if l.env = [] ∨ rawText env l = [] then none
  else (setField parsers l.type (rawText env l)).toOption

/-- What a leaf holds after `Load`. -/
def settled (env : Env) (l : Leaf) (old : Val ν) : Val ν :=
  (parsedValue parsers env l).getD old

/-- An empty text is allowed if the leaf is not required; any other text has to parse. -/
def Satisfied (env : Env) (l : Leaf) : Prop :=
  l.env ≠ [] → (rawText env l = [] ∧ l.required ≠ "true".toList) ∨
    (rawText env l ≠ [] ∧ ∃ v, setField parsers l.type (rawText env l) = .ok v)

theorem parseLeaf_value (env : Env) (l : Leaf) (old : Val ν) :
    (parseLeaf parsers env l old).1 = settled parsers env l old := by
  unfold parseLeaf settled parsedValue
  by_cases htag : l.env = []
  · rw [if_pos htag, if_pos (Or.inl htag), Option.getD_none]
  · rw [if_neg htag]
    by_cases hraw : rawText env l = []
    · rw [if_pos hraw, if_pos (Or.inr hraw), Option.getD_none]
    · rw [if_neg hraw, if_neg (not_or.mpr ⟨htag, hraw⟩)]
      cases setField parsers l.type (rawText env l) <;> rfl

theorem parseLeaf_error_iff (env : Env) (l : Leaf) (old : Val ν) :
    (parseLeaf parsers env l old).2 = none ↔ Satisfied parsers env l := by
  unfold parseLeaf Satisfied
  by_cases htag : l.env = []
  · rw [if_pos htag]
    exact iff_of_true rfl (absurd htag)
  · rw [if_neg htag]
    by_cases hraw : rawText env l = []
    · rw [if_pos hraw]
      by_cases hrequired : l.required = "true".toList
      · rw [if_pos hrequired]
        refine iff_of_false (Option.some_ne_none _) (fun h => ?_)
        rcases h htag with ⟨-, hoptional⟩ | ⟨htext, -⟩
        · exact hoptional hrequired
        · exact htext hraw
      · rw [if_neg hrequired]
        exact iff_of_true rfl fun _ => Or.inl ⟨hraw, hrequired⟩
    · rw [if_neg hraw]
      cases setField parsers l.type (rawText env l) with
      | error err => simp [htag, hraw]
      | ok v => simp [hraw]

/-- Every error of a leaf has its variable in quotes. -/
theorem parseLeaf_error_names {env : Env} {l : Leaf} {old : Val ν} {text : Text}
    (herr : (parseLeaf parsers env l old).2 = some text) : quoted l.env <:+: text := by
  unfold parseLeaf at herr
  split_ifs at herr with htag hraw hrequired
  · obtain rfl := Option.some.inj herr
    exact ⟨_, _, rfl⟩
  · cases hset : setField parsers l.type (rawText env l) with
    | error err =>
        simp only [hset, Option.some.injEq] at herr
        subst herr
        exact ⟨"env var ".toList, ": ".toList ++ err, by simp only [List.append_assoc]⟩
    | ok v => simp [hset] at herr

/-! ## Trees -/

theorem parseFields_value (env : Env) (fields : Fields ν) :
    (parseFields parsers env fields).1 = fields.mapLeaves (settled parsers env) := by
  induction fields with
  | nil => rfl
  | leaf l value rest ih => simp [parseFields, Fields.mapLeaves, ih, parseLeaf_value]
  | struct inner rest ihInner ihRest =>
      simp [parseFields, Fields.mapLeaves, ihInner, ihRest]

theorem parseFields_errors_nil_iff (env : Env) (fields : Fields ν) :
    (parseFields parsers env fields).2 = [] ↔
      ∀ l ∈ fields.leaves, Satisfied parsers env l := by
  induction fields with
  | nil => simp [parseFields, Fields.leaves]
  | leaf l value rest ih =>
      simp [parseFields, Fields.leaves, ih, ← parseLeaf_error_iff parsers env l value]
  | struct inner rest ihInner ihRest =>
      simp [parseFields, Fields.leaves, ihRest, or_imp, forall_and, ← ihInner]

/-- Each of several texts is a part of the joined one. -/
theorem isInfix_joined {text : Text} {errs : List Text} (hmem : text ∈ errs) :
    text <:+: joined errs := by
  induction errs with
  | nil => simp at hmem
  | cons err errs ih =>
      cases errs with
      | nil =>
          obtain rfl : text = err := by simpa using hmem
          simp [joined]
      | cons err' errs =>
          have hjoined : joined (err :: err' :: errs) =
              err ++ ("; ".toList ++ joined (err' :: errs)) := by simp [joined]
          rw [hjoined]
          rcases List.mem_cons.mp hmem with rfl | hrest
          · exact (List.prefix_append _ _).isInfix
          · exact (ih hrest).trans
              (List.suffix_append _ _ |>.trans (List.suffix_append _ _)).isInfix

theorem parseFields_errors_name (env : Env) (fields : Fields ν) {l : Leaf}
    (hl : l ∈ fields.leaves) (hfails : ¬Satisfied parsers env l) :
    ∃ text ∈ (parseFields parsers env fields).2, quoted l.env <:+: text := by
  induction fields with
  | nil => simp [Fields.leaves] at hl
  | leaf l' value rest ih =>
      rcases List.mem_cons.mp hl with rfl | hrest
      · cases herr : (parseLeaf parsers env l value).2 with
        | none => exact absurd ((parseLeaf_error_iff parsers env l value).mp herr) hfails
        | some text =>
            exact ⟨text, by simp [parseFields, herr], parseLeaf_error_names parsers herr⟩
      · obtain ⟨text, htext, hnamed⟩ := ih hrest
        exact ⟨text, by simp [parseFields, htext], hnamed⟩
  | struct inner rest ihInner ihRest =>
      rcases List.mem_append.mp hl with hinner | hrest
      · -- the texts of a nested struct arrive as one
        obtain ⟨text, htext, hnamed⟩ := ihInner hinner
        refine ⟨joined (parseFields parsers env inner).2, ?_,
          hnamed.trans (isInfix_joined htext)⟩
        simp [parseFields, List.ne_nil_of_mem htext]
      · obtain ⟨text, htext, hnamed⟩ := ihRest hrest
        exact ⟨text, by simp [parseFields, htext], hnamed⟩

/-! ## Loading -/

/-- What is asked of a struct read from an environment. -/
structure Loads (env : Env) (fields fields' : Fields ν) (err : Option Text) : Prop where
  nil_iff : err = none ↔ ∀ l ∈ fields.leaves, Satisfied parsers env l
  values : fields' = fields.mapLeaves (settled parsers env)
  named : ∀ l ∈ fields.leaves, ¬Satisfied parsers env l →
    ∃ text, err = some text ∧ quoted l.env <:+: text

theorem parseStruct_loads (env : Env) (fields : Fields ν) :
    Loads parsers env fields (parseStruct parsers env fields).1
      (parseStruct parsers env fields).2 where
  nil_iff := by
    rw [← parseFields_errors_nil_iff]
    by_cases hnil : (parseFields parsers env fields).2 = [] <;> simp [parseStruct, hnil]
  values := parseFields_value parsers env fields
  named := by
    intro l hl hfails
    obtain ⟨text, htext, hnamed⟩ := parseFields_errors_name parsers env fields hl hfails
    refine ⟨joined (parseFields parsers env fields).2, ?_, hnamed.trans (isInfix_joined htext)⟩
    simp [parseStruct, List.ne_nil_of_mem htext]

/-- A variable that is there stays and any other gets its first definition in the file that
the environment can hold; the struct is read from what results. -/
theorem load_reads_definitions (path : Text) {lines : List Text}
    (hfits : ∀ text ∈ lines, fits text = true) (env : Env) (fields : Fields ν) :
    ∃ env' fields' err, load parsers path (.lines lines) env fields = (env', fields', err) ∧
      (∀ k, env'.find k = (env.find k).or (firstDefinition lines k)) ∧
      Loads parsers env' fields fields' err := by
  obtain ⟨env', hload, hfind⟩ := loadEnvFile_find hfits env
  refine ⟨env', _, _, ?_, hfind, parseStruct_loads parsers env' fields⟩
  simp only [load, EnvFile.load, hload]

/-- Parsers that accept nothing. -/
def noParsers : Parsers Unit where
  parseDuration _ := .error (.new "no duration")
  parseURL _ := .error (.new "no URL")
  parseIP _ := none
  parseBool _ := none
  parseInt _ _ := none
  parseUint _ _ := none
  parseFloat _ _ := none

/-- A name behind a nested secret. -/
def secretFields : Fields Unit :=
  .struct (.leaf ⟨"SECRET".toList, [], "true".toList, .string⟩ (.string []) .nil)
    (.leaf ⟨"NAME".toList, "gkit".toList, [], .string⟩ (.string []) .nil)

/-- A file without the secret: the error has its name and the other leaf is set. -/
theorem missing_secret_named :
    ∃ env' fields' err, load noParsers [] (.lines ["NAME=api".toList]) Table.empty secretFields =
        (env', fields', err) ∧
      (∀ k, env'.find k = (GoMap.find Table.empty k).or
        (firstDefinition ["NAME=api".toList] k)) ∧
      Loads noParsers env' secretFields fields' err :=
  load_reads_definitions noParsers [] (by decide) Table.empty
    secretFields

/-- The environment refuses a value with a NUL, so the second definition is the one that counts. -/
theorem nul_definition_skipped :
    (∀ text ∈ ["NAME=a\x00b".toList, "NAME=c".toList], fits text = true) ∧
      parseLine "NAME=a\x00b".toList = some ("NAME".toList, "a\x00b".toList) ∧
      (load noParsers [] (.lines ["NAME=a\x00b".toList, "NAME=c".toList]) Table.empty
        secretFields).1.find "NAME".toList = some "c".toList := by
  decide +kernel

end Gkit.Config
