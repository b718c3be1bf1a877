import Gkit.Config.Model

/-!
# Lines of an env file

All quote characters of both kinds are taken off both ends of a value.  So a value
in quotes is read back exactly if it has none at its own ends, as long as the
environment can hold it and the scanner can read the line.
-/

namespace Gkit.Config

open Gkit.Lib

/-! ## One line -/

theorem trimSpace_key_append {key x : Text} (hkey : Text.Trimmed Text.isSpace key)
    (hx : ∀ c ∈ x.getLast?, Text.isSpace c = false) :
    Text.trimSpace (key ++ '=' :: x) = key ++ '=' :: x := by
  apply Text.trimBy_eq_self_iff.mpr
  constructor
  · intro c hc
    cases key with
    | nil =>
        obtain rfl : '=' = c := by simpa using hc
        decide
    | cons d key => exact hkey.1 c (by simpa using hc)
  · intro c hc
    rw [List.getLast?_append, List.getLast?_cons] at hc
    cases hlast : x.getLast? with
    | none =>
        obtain rfl : '=' = c := by simpa [hlast] using hc
        decide
    | some d =>
        obtain rfl : d = c := by simpa [hlast] using hc
        exact hx d hlast

/-- What is read of a line that has a key without special characters. -/
theorem parseLine_eq {key x : Text} (hequals : '=' ∉ key) (hhash : '#' ∉ key)
    (hkey : Text.Trimmed Text.isSpace key) (hx : Text.Trimmed Text.isSpace x) :
    parseLine (key ++ '=' :: x) = some (key, Text.trimBy isQuote x) := by
  have hline := trimSpace_key_append hkey hx.2
  have hstart : ¬(key ++ '=' :: x = [] ∨
      Text.startsWith (key ++ '=' :: x) ['#'] = true) := by
    rintro (hnil | hstart)
    · simp at hnil
    · cases key with
      | nil => simp [Text.startsWith] at hstart
      | cons c key =>
          obtain rfl : '#' = c := by simpa [Text.startsWith] using hstart
          exact hhash List.mem_cons_self
  simp only [parseLine, hline, if_neg hstart, Text.cut_append hequals]
  rw [Text.trimSpace, Text.trimSpace, Text.trimBy_eq_self_iff.mpr hkey,
    Text.trimBy_eq_self_iff.mpr hx]

/-! ## A whole file -/

/-- The value a line gives to a variable, if the environment can hold it. -/
def definitionOf (k text : Text) : Option Text :=
  match parseLine text with
  | none => none
  | some (key, val) => if key = k ∧ storable key val then some val else none

/-- The first definition of a variable in a file. -/
def firstDefinition (lines : List Text) (k : Text) : Option Text :=
  lines.findSome? (definitionOf k)

theorem loadLine_find (env : Env) (text k : Text) :
    (loadLine env text).find k = (env.find k).or (definitionOf k text) := by
  rcases hline : parseLine text with _ | ⟨key, val⟩
  · simp [loadLine, definitionOf, hline]
  · by_cases hstorable : storable key val = true
    · cases hkey : env.find key with
      | some v =>
          by_cases hk : key = k
          · simp [loadLine, definitionOf, hline, ← hk, hkey]
          · simp [loadLine, definitionOf, hline, hk, hkey]
      | none =>
          by_cases hk : key = k
          · simp [loadLine, definitionOf, hline, ← hk, hkey, setenv, hstorable,
              GoMap.find_insert]
          · simp [loadLine, definitionOf, hline, hk, hkey, setenv, hstorable,
              GoMap.find_insert, Ne.symm hk]
    · simp [loadLine, definitionOf, hline, setenv, hstorable]

/-- Variables that are there stay, and the others get their first definition. -/
theorem loadEnvFile_find {lines : List Text} (hfits : ∀ text ∈ lines, fits text = true)
    (env : Env) :
    ∃ env', loadEnvFile lines env = (env', none) ∧
      ∀ k, env'.find k = (env.find k).or (firstDefinition lines k) := by
  induction lines generalizing env with
  | nil => exact ⟨env, rfl, fun k => by simp [firstDefinition]⟩
  | cons text lines ih =>
      obtain ⟨env', hload, hfind⟩ := ih (fun t ht => hfits t (List.mem_cons_of_mem _ ht))
        (loadLine env text)
      refine ⟨env', ?_, fun k => ?_⟩
      · rw [loadEnvFile, if_pos (hfits text List.mem_cons_self), hload]
      · rw [hfind, loadLine_find, firstDefinition, firstDefinition, List.findSome?_cons,
          Option.or_assoc]
        cases definitionOf k text <;> simp

/-! ## Quoting -/

theorem definitionOf_eq {key x : Text} (hequals : '=' ∉ key) (hhash : '#' ∉ key)
    (hkey : Text.Trimmed Text.isSpace key) (hx : Text.Trimmed Text.isSpace x) :
    definitionOf key (key ++ '=' :: x) =
      if storable key (Text.trimBy isQuote x) then some (Text.trimBy isQuote x) else none := by
  simp [definitionOf, parseLine_eq hequals hhash hkey hx]

def unquotedLine (key v : Text) : Text := key ++ '=' :: v

/-- A value enclosed in one pair of quotes. -/
def quotedLine (key : Text) (q : Char) (v : Text) : Text := unquotedLine key (q :: (v ++ [q]))

/-- A name that a line can define. -/
structure IsKey (key : Text) : Prop where
  noEquals : '=' ∉ key
  noHash : '#' ∉ key
  trimmed : Text.Trimmed Text.isSpace key

theorem isSpace_of_isQuote {q : Char} (hq : isQuote q = true) : Text.isSpace q = false := by
  rcases (by simpa [isQuote] using hq : q = '"' ∨ q = '\x27') with rfl | rfl <;> decide

theorem trimmed_quoted {q : Char} (hq : isQuote q = true) (v : Text) :
    Text.Trimmed Text.isSpace (q :: (v ++ [q])) := by
  constructor
  · intro c hc
    obtain rfl : q = c := by simpa using hc
    exact isSpace_of_isQuote hq
  · intro c hc
    obtain rfl : q = c := by simpa [List.getLast?_cons] using hc
    exact isSpace_of_isQuote hq

theorem definitionOf_quotedLine {key : Text} (hkey : IsKey key) {q : Char}
    (hq : isQuote q = true) (v : Text) :
    definitionOf key (quotedLine key q v) = some v ↔
      Text.Trimmed isQuote v ∧ storable key v = true := by
  rw [quotedLine, unquotedLine, definitionOf_eq hkey.noEquals hkey.noHash hkey.trimmed
    (trimmed_quoted hq v), Text.trimBy_enclosed hq, ← Text.trimBy_eq_self_iff]
  constructor
  · intro h
    split_ifs at h with hstorable
    have htrim : Text.trimBy isQuote v = v := Option.some.inj h
    exact ⟨htrim, by rwa [htrim] at hstorable⟩
  · rintro ⟨htrim, hstorable⟩
    rw [htrim, if_pos hstorable]

theorem definitionOf_unquotedLine {key : Text} (hkey : IsKey key) {v : Text}
    (hspace : Text.Trimmed Text.isSpace v) (hquote : Text.Trimmed isQuote v) :
    definitionOf key (unquotedLine key v) = some v ↔ storable key v = true := by
  rw [unquotedLine, definitionOf_eq hkey.noEquals hkey.noHash hkey.trimmed hspace,
    Text.trimBy_eq_self_iff.mpr hquote]
  simp

/-- The only line of a file sets its variable if it is not too long. -/
theorem loadEnvFile_line {env : Env} {key line : Text} (hnew : env.find key = none) (v : Text) :
    (loadEnvFile [line] env).1.find key = some v ↔
      definitionOf key line = some v ∧ fits line = true := by
  by_cases hfits : fits line = true
  · simp [loadEnvFile, hfits, loadLine_find, hnew]
  · simp [loadEnvFile, hfits, hnew]

/-- A line anywhere in a file, behind lines that do not define its variable. -/
theorem loadEnvFile_among {env : Env} {key line v : Text} {before after : List Text}
    (hnew : env.find key = none) (hfits : ∀ text ∈ before ++ line :: after, fits text = true)
    (hbefore : firstDefinition before key = none) (hline : definitionOf key line = some v) :
    (loadEnvFile (before ++ line :: after) env).1.find key = some v := by
  obtain ⟨env', hload, hfind⟩ := loadEnvFile_find hfits env
  rw [hload, hfind, hnew, Option.none_or, firstDefinition, List.findSome?_append,
    List.findSome?_cons, hline]
  rw [firstDefinition] at hbefore
  rw [hbefore, Option.none_or]

/-- A line sets its variable to `v`, alone and among other lines, exactly under `P`. -/
def SetsExactly (env : Env) (key line v : Text) (P : Prop) : Prop :=
  ((loadEnvFile [line] env).1.find key = some v ↔ P) ∧
    ∀ before after, P → (∀ text ∈ before ++ after, fits text = true) →
      firstDefinition before key = none →
      (loadEnvFile (before ++ line :: after) env).1.find key = some v

theorem setsExactly_of_definitionOf {env : Env} {key line v : Text} {P : Prop}
    (hnew : env.find key = none) (hP : definitionOf key line = some v ↔ P) :
    SetsExactly env key line v (P ∧ fits line = true) := by
  refine ⟨(loadEnvFile_line hnew v).trans (and_congr_left' hP), ?_⟩
  rintro before after ⟨hp, hfits⟩ hothers hbefore
  refine loadEnvFile_among hnew (fun text htext => ?_) hbefore (hP.mpr hp)
  rcases List.mem_append.mp htext with h | h
  · exact hothers text (List.mem_append_left _ h)
  · rcases List.mem_cons.mp h with rfl | h
    · exact hfits
    · exact hothers text (List.mem_append_right _ h)

/-- A value in quotes of either kind is read back exactly if it has no quote at its own ends; a
value without quotes is read back if it has neither quotes nor white space at its ends. -/
theorem quoting_round_trips_iff {env : Env} {key : Text} (hkey : IsKey key)
    (hnew : env.find key = none) (v : Text) :
    (∀ q ∈ ['"', '\x27'], SetsExactly env key (quotedLine key q v) v
      ((Text.Trimmed isQuote v ∧ storable key v = true) ∧ fits (quotedLine key q v) = true)) ∧
    (Text.Trimmed Text.isSpace v → Text.Trimmed isQuote v →
      SetsExactly env key (unquotedLine key v) v
        (storable key v = true ∧ fits (unquotedLine key v) = true)) := by
  refine ⟨fun q hq => ?_, fun hspace hquote => ?_⟩
  · have hq : isQuote q = true := by simpa [isQuote] using hq
    exact setsExactly_of_definitionOf hnew (definitionOf_quotedLine hkey hq v)
  · exact setsExactly_of_definitionOf hnew (definitionOf_unquotedLine hkey hspace hquote)

theorem isKey_token : IsKey "TOKEN".toList := by
  refine ⟨by decide, by decide, ?_, ?_⟩
  · intro c hc
    obtain rfl : 'T' = c := by simpa using hc
    decide
  · intro c hc
    obtain rfl : 'N' = c := by simpa using hc
    decide

/-- A plain secret comes back from a line in double quotes. -/
theorem plain_secret_round_trips :
    (loadEnvFile ["TOKEN=\"secret\"".toList] Table.empty).1.find "TOKEN".toList =
      some "secret".toList := by
  have hv : Text.Trimmed isQuote "secret".toList := Text.trimBy_eq_self_iff.mp (by decide)
  exact ((quoting_round_trips_iff isKey_token rfl "secret".toList).1 '"' (by decide)).1.mpr
    ⟨⟨hv, by decide⟩, by decide⟩

/-- A secret that begins with a quote loses it in quotes of either kind. -/
theorem quote_at_the_start_lost :
    IsKey "TOKEN".toList ∧
      quotedLine "TOKEN".toList '"' "\"secret".toList = "TOKEN=\"\"secret\"".toList ∧
      (loadEnvFile ["TOKEN=\"\"secret\"".toList] Table.empty).1.find "TOKEN".toList =
        some "secret".toList ∧
      quotedLine "TOKEN".toList '\x27' "\"secret".toList = "TOKEN=\x27\"secret\x27".toList ∧
      (loadEnvFile ["TOKEN=\x27\"secret\x27".toList] Table.empty).1.find "TOKEN".toList =
        some "secret".toList :=
  ⟨isKey_token, by decide +kernel⟩

end Gkit.Config
