import Gkit.Validation.Completeness

/-!
# The arguments of rules

A tag is cut at its commas and each piece is trimmed before a rule sees its
argument.  So the argument of `regex=` and `oneof=` is the one in the tag exactly
if it has no comma and no white space at its end.  What counts is the message, in
which the argument is quoted: the options `b`, `b ` and `b ` lose a blank in it, and
accept the same texts as before.
-/

namespace Gkit.Validation

open Gkit.Lib

/-- The messages of a string field for a tag. -/
def messages (checks : Checks) (tag s : Text) : List Text :=
  failing (applyRule checks) (rulesOf tag) (.scalar (.string s))

/-- Alone or among other rules, the rule says what the check says. -/
def Survives (rule : Text) (valid : Checks → Prop) (check : Checks → Text → Text) : Prop :=
  ∀ checks, valid checks → ∀ s, s ≠ [] → ∀ before after : List Text,
    messages checks (List.intercalate [','] (before ++ rule :: after)) s =
      before.flatMap (messages checks · s) ++
        ([check checks s].filter (· ≠ []) ++ after.flatMap (messages checks · s))

/-- No comma, and no white space at the end. -/
def Intact (arg : Text) : Prop := ',' ∉ arg ∧ arg.rdropWhile Text.isSpace = arg

/-! ## Tags -/

theorem rulesOf_intercalate {tags : List Text} (h : tags ≠ []) :
    rulesOf (List.intercalate [','] tags) = tags.flatMap rulesOf := by
  induction tags with
  | nil => exact absurd rfl h
  | cons tag tags ih =>
      cases tags with
      | nil => simp
      | cons tag' tags =>
          rw [List.intercalate_cons_cons, List.append_assoc, List.singleton_append, rulesOf,
            List.splitOn_append_cons_self, List.map_append, List.flatMap_cons]
          exact congrArg _ (ih (by simp))

theorem failing_flatMap (check : Text → Value → Text) (fv : Value) (tags : List Text) :
    failing check (tags.flatMap rulesOf) fv =
      tags.flatMap fun tag => failing check (rulesOf tag) fv := by
  induction tags with
  | nil => rfl
  | cons tag tags ih =>
      rw [List.flatMap_cons, List.flatMap_cons, ← ih]
      simp [failing]

theorem survives_iff {rule : Text} {valid : Checks → Prop} {check : Checks → Text → Text} :
    Survives rule valid check ↔ ∀ checks, valid checks → ∀ s, s ≠ [] →
      messages checks rule s = [check checks s].filter (· ≠ []) := by
  constructor
  · intro h checks hvalid s hs
    simpa using h checks hvalid s hs [] []
  · intro h checks hvalid s hs before after
    have hrules : rulesOf (List.intercalate [','] (before ++ rule :: after)) =
        (before ++ rule :: after).flatMap rulesOf := rulesOf_intercalate (by simp)
    rw [messages, hrules, failing_flatMap, List.flatMap_append, List.flatMap_cons]
    rw [← h checks hvalid s hs]
    rfl

/-! ## Trimming behind a word -/

/-- A word that names a rule with an argument. -/
structure Word (w : Text) : Prop where
  comma : ',' ∉ w
  first : ∃ c t, w = c :: t ∧ Text.isSpace c = false
  last : ∃ t, w = t ++ ['=']

theorem trimSpace_word {w : Text} (hw : Word w) (x : Text) :
    Text.trimSpace (w ++ x) = w ++ x.rdropWhile Text.isSpace := by
  obtain ⟨c, t, hfirst, hc⟩ := hw.first
  obtain ⟨t', hlast⟩ := hw.last
  have hdrop : (w ++ x).dropWhile Text.isSpace = w ++ x := by
    rw [hfirst, List.cons_append, List.dropWhile_cons_of_neg]
    simp [hc]
  have hequals : Text.isSpace '=' = false := by decide
  rw [Text.trimSpace, Text.trimBy, hdrop, hlast, List.append_assoc, List.append_assoc]
  exact Text.rdropWhile_append hequals t' x

theorem rulesOf_intact {w x : Text} (hw : Word w) (h : Intact x) : rulesOf (w ++ x) = [w ++ x] := by
  have hcomma : ',' ∉ w ++ x := by simp [hw.comma, h.1]
  rw [rulesOf, List.splitOn_eq_singleton hcomma, List.map_singleton, trimSpace_word hw, h.2]

/-- Otherwise the rule gets a proper beginning of the argument. -/
theorem rulesOf_not_intact {w x : Text} (hw : Word w) (h : ¬Intact x) :
    ∃ x' rest, rulesOf (w ++ x) = (w ++ x') :: rest ∧ x' <+: x ∧ x'.length < x.length := by
  by_cases hcomma : ',' ∈ x
  · obtain ⟨y, z, rfl, hy⟩ := List.eq_append_cons_of_mem hcomma
    have hpre : y.rdropWhile Text.isSpace <+: y := List.rdropWhile_prefix _ _
    have hwy : ',' ∉ w ++ y := by simp [hw.comma, hy]
    refine ⟨y.rdropWhile Text.isSpace, rulesOf z, ?_, hpre.trans (List.prefix_append _ _), ?_⟩
    · rw [rulesOf, ← List.append_assoc, List.splitOn_append_cons_self_of_not_mem hwy,
        List.map_cons, trimSpace_word hw]
      rfl
    · have hle := hpre.length_le
      simp only [List.length_append, List.length_cons]
      omega
  · have htrim : x.rdropWhile Text.isSpace ≠ x := fun heq => h ⟨hcomma, heq⟩
    have hpre : x.rdropWhile Text.isSpace <+: x := List.rdropWhile_prefix _ _
    have hwx : ',' ∉ w ++ x := by simp [hw.comma, hcomma]
    refine ⟨x.rdropWhile Text.isSpace, [], ?_, hpre, ?_⟩
    · rw [rulesOf, List.splitOn_eq_singleton hwx, List.map_singleton, trimSpace_word hw]
    · exact lt_of_le_of_ne hpre.length_le fun heq => htrim (hpre.eq_of_length heq)

/-! ## The two rules -/

def regexWord : Text := "regex=".toList
def oneofWord : Text := "oneof=".toList

theorem word_regex : Word regexWord := by
  refine ⟨by decide, ⟨'r', "egex=".toList, rfl, by decide⟩, ⟨"regex".toList, rfl⟩⟩

theorem word_oneof : Word oneofWord := by
  refine ⟨by decide, ⟨'o', "neof=".toList, rfl, by decide⟩, ⟨"oneof".toList, rfl⟩⟩

/-- The rules that are words have no argument. -/
theorem ne_word_of_mem {rule : Text} (h : '=' ∈ rule) :
    rule ≠ "required".toList ∧ rule ≠ "email".toList ∧ rule ≠ "url".toList := by
  refine ⟨?_, ?_, ?_⟩
  all_goals
    rintro rfl
    revert h
    decide

theorem applyRule_regex (checks : Checks) (p s : Text) (hs : s ≠ []) :
    applyRule checks (regexWord ++ p) (.scalar (.string s)) = checkRegex checks s p := by
  have hmem : '=' ∈ regexWord ++ p := List.mem_append_left p (by decide)
  obtain ⟨hrequired, hemail, hurl⟩ := ne_word_of_mem hmem
  have hmin : (regexWord ++ p).startsWith "min=".toList = false := rfl
  have hmax : (regexWord ++ p).startsWith "max=".toList = false := rfl
  have honeof : (regexWord ++ p).startsWith "oneof=".toList = false := rfl
  have hregex : (regexWord ++ p).startsWith "regex=".toList = true := rfl
  have harg : (regexWord ++ p).withoutStart "regex=".toList = p := rfl
  rw [applyRule, if_neg hrequired, if_neg hemail, if_neg hurl, hmin, hmax, honeof, hregex, harg]
  simp [onText, hs]

theorem applyRule_oneof (checks : Checks) (arg s : Text) (hs : s ≠ []) :
    applyRule checks (oneofWord ++ arg) (.scalar (.string s)) = checkOneOf s (arg.splitOn '|') := by
  have hmem : '=' ∈ oneofWord ++ arg := List.mem_append_left arg (by decide)
  obtain ⟨hrequired, hemail, hurl⟩ := ne_word_of_mem hmem
  have hmin : (oneofWord ++ arg).startsWith "min=".toList = false := rfl
  have hmax : (oneofWord ++ arg).startsWith "max=".toList = false := rfl
  have honeof : (oneofWord ++ arg).startsWith "oneof=".toList = true := rfl
  have harg : (oneofWord ++ arg).withoutStart "oneof=".toList = arg := rfl
  rw [applyRule, if_neg hrequired, if_neg hemail, if_neg hurl, hmin, hmax, honeof, harg]
  simp [onText, hs]

theorem checkRegex_eq_nil_iff {checks : Checks} {p : Text} {isMatch : Text → Bool}
    (h : checks.compile p = .ok isMatch) (s : Text) :
    checkRegex checks s p = [] ↔ isMatch s = true := by
  simp only [checkRegex, h]
  refine ⟨fun hnil => ?_, fun hmatch => if_pos hmatch⟩
  by_contra hmatch
  rw [if_neg hmatch] at hnil
  exact absurd (List.append_eq_nil_iff.mp hnil).1 (by decide)

theorem checkOneOf_eq_nil_iff (s : Text) (options : List Text) :
    checkOneOf s options = [] ↔ s ∈ options := by
  by_cases hs : s ∈ options <;> simp [checkOneOf, hs]

/-- A regular expression that is cut is taken for another one. -/
theorem regex_survives_iff (p : Text) :
    Survives (regexWord ++ p) (fun checks => ∃ isMatch, checks.compile p = .ok isMatch)
      (fun checks s => checkRegex checks s p) ↔ Intact p := by
  rw [survives_iff]
  constructor
  · intro h
    by_contra hcut
    obtain ⟨p', rest, hrules, -, hlt⟩ := rulesOf_not_intact word_regex hcut
    have hne : p' ≠ p := fun heq => absurd (congrArg List.length heq) hlt.ne
    -- only the whole pattern matches anything
    let checks : Checks := ⟨fun q => .ok fun _ => q = p, fun _ => [], fun _ => [],
      fun _ _ => [], fun _ _ => []⟩
    have hcheck : ∀ q, checkRegex checks ['x'] q = [] ↔ decide (q = p) = true :=
      fun q => @checkRegex_eq_nil_iff checks q (fun _ => q = p) rfl ['x']
    have hmessages := h checks ⟨_, rfl⟩ ['x'] (by simp)
    rw [messages, hrules, failing, List.map_cons, applyRule_regex checks p' _ (by simp),
      (hcheck p).mpr (by simp)] at hmessages
    have hfail : checkRegex checks ['x'] p' ≠ [] := fun hnil => hne (by simpa [hcheck] using hnil)
    simp [hfail] at hmessages
  · intro hintact checks _ s hs
    rw [messages, rulesOf_intact word_regex hintact, failing, List.map_singleton,
      applyRule_regex checks p s hs]

theorem length_splitOn (a : Char) (x : Text) : (x.splitOn a).length = x.count a + 1 := by
  induction x with
  | nil => simp
  | cons c x ih =>
      rw [List.splitOn_cons_eq_if_modifyHead, List.count_cons]
      split_ifs with hc <;> simp [ih]

theorem length_intercalate (sep : Text) {parts : List Text} (h : parts ≠ []) :
    (List.intercalate sep parts).length + sep.length =
      (parts.map List.length).sum + parts.length * sep.length := by
  induction parts with
  | nil => exact absurd rfl h
  | cons part parts ih =>
      cases parts with
      | nil => simp
      | cons part' parts =>
          have hrest := ih (by simp)
          rw [List.intercalate_cons_cons, List.map_cons, List.sum_cons, List.length_cons,
            List.length_append, List.length_append, Nat.add_mul, one_mul]
          omega

theorem length_le_intercalate {parts : List Text} {part : Text} (h : part ∈ parts) :
    part.length ≤ (List.intercalate ['|'] parts).length := by
  have hlength := length_intercalate ['|'] (List.ne_nil_of_mem h)
  have hsum : part.length ≤ (parts.map List.length).sum :=
    List.le_sum_of_mem (List.mem_map_of_mem h)
  have hpos : 0 < parts.length := List.length_pos_of_mem h
  have hone : ['|'].length = 1 := rfl
  rw [hone] at hlength
  omega

/-- The options of a longer argument make a longer message. -/
theorem length_options_lt {x' x : Text} (hpre : x' <+: x) (hlt : x'.length < x.length) :
    (List.intercalate ", ".toList (x'.splitOn '|')).length <
      (List.intercalate ", ".toList (x.splitOn '|')).length := by
  have hlength : ∀ y : Text, (List.intercalate ", ".toList (y.splitOn '|')).length =
      y.length + y.count '|' := by
    intro y
    have hsep := length_intercalate ", ".toList (List.splitOn_ne_nil '|' y)
    have hbar := length_intercalate ['|'] (List.splitOn_ne_nil '|' y)
    rw [List.intercalate_splitOn, length_splitOn] at hbar
    rw [length_splitOn] at hsep
    have htwo : ", ".toList.length = 2 := rfl
    have hone : ['|'].length = 1 := rfl
    rw [htwo] at hsep
    rw [hone] at hbar
    omega
  have hcount := hpre.sublist.count_le '|'
  rw [hlength, hlength]
  omega

/-- The condition is necessary for the text of the message; a cut argument may still
accept the same texts. -/
theorem oneof_survives_iff {options : List Text} (hbar : ∀ o ∈ options, '|' ∉ o) :
    Survives (oneofWord ++ List.intercalate ['|'] options) (fun _ => True)
      (fun _ s => checkOneOf s options) ↔ Intact (List.intercalate ['|'] options) := by
  rw [survives_iff]
  constructor
  · intro h
    by_contra hcut
    obtain ⟨x, rest, hrules, hpre, hlt⟩ := rulesOf_not_intact word_oneof hcut
    have hoptions : (List.intercalate ['|'] options).splitOn '|' = options := by
      apply List.splitOn_intercalate '|' hbar
      rintro rfl
      exact absurd hlt (Nat.not_lt_zero _)
    have hlength := length_options_lt hpre hlt
    rw [hoptions] at hlength
    -- a text that is longer than every option, so that both lists are in the messages
    obtain ⟨s, hs⟩ : ∃ s : Text, (List.intercalate ['|'] options).length < s.length :=
      ⟨List.replicate ((List.intercalate ['|'] options).length + 1) 'x', by simp⟩
    have hwhole : s ∉ options := fun hmem => absurd (length_le_intercalate hmem) (not_le.mpr hs)
    have hcutoff : s ∉ x.splitOn '|' := by
      intro hmem
      have hle := length_le_intercalate hmem
      rw [List.intercalate_splitOn] at hle
      exact absurd (hle.trans_lt hlt) (not_lt.mpr hs.le)
    have hnil : s ≠ [] := List.ne_nil_of_length_pos (Nat.zero_lt_of_lt hs)
    have hmessages := h ⟨fun _ => .error [], fun _ => [], fun _ => [], fun _ _ => [],
      fun _ _ => []⟩ trivial s hnil
    have hfirst : checkOneOf s (x.splitOn '|') ≠ [] := (checkOneOf_eq_nil_iff _ _).not.mpr hcutoff
    have hsecond : checkOneOf s options ≠ [] := (checkOneOf_eq_nil_iff _ _).not.mpr hwhole
    rw [messages, hrules, failing, List.map_cons, applyRule_oneof _ _ _ hnil,
      List.filter_cons_of_pos (by simpa using hfirst),
      List.filter_cons_of_pos (by simpa using hsecond)] at hmessages
    have heq := congrArg List.length (List.cons.inj hmessages).1
    simp only [checkOneOf, hcutoff, hwhole, if_false, List.length_append] at heq
    omega
  · intro hintact checks _ s hs
    rw [messages, rulesOf_intact word_oneof hintact, failing, List.map_singleton,
      applyRule_oneof checks _ s hs]
    cases options with
    | nil => simp [checkOneOf, hs]
    | cons o options => rw [List.splitOn_intercalate '|' hbar (by simp)]

/-- The argument of a `regex` or `oneof` rule is the one in the tag, alone and among
other rules, exactly if it has no comma and no white space at its end.  Then the
rule fails exactly if the pattern does not match, or the value is not an option. -/
theorem arguments_survive_iff (p : Text) (options : List Text) :
    (Survives (regexWord ++ p) (fun checks => ∃ isMatch, checks.compile p = .ok isMatch)
      (fun checks s => checkRegex checks s p) ↔ Intact p) ∧
    ((∀ o ∈ options, '|' ∉ o) →
      (Survives (oneofWord ++ List.intercalate ['|'] options) (fun _ => True)
        (fun _ s => checkOneOf s options) ↔ Intact (List.intercalate ['|'] options))) ∧
    (∀ checks isMatch s, checks.compile p = .ok isMatch →
      (checkRegex checks s p = [] ↔ isMatch s = true)) ∧
    ∀ s, checkOneOf s options = [] ↔ s ∈ options :=
  ⟨regex_survives_iff p, oneof_survives_iff, fun _ _ s h => checkRegex_eq_nil_iff h s,
    fun s => checkOneOf_eq_nil_iff s options⟩

/-- Two to four lower-case letters, and the part of the pattern before its comma. -/
def codePattern : Text := "^[a-z]\x7b2,4\x7d$".toList

def codeChecks : Checks where
  compile p := .ok fun s =>
    if p = codePattern then 2 ≤ s.length ∧ s.length ≤ 4 ∧ s.all Char.isLower
    else Text.startsWith s ("a\x7b2".toList)
  checkEmail _ := []
  checkURL _ := []
  checkMin _ _ := []
  checkMax _ _ := []

/-- A code that the pattern matches is refused, and an option with a comma is not
accepted. -/
theorem comma_cuts_arguments :
    checkRegex codeChecks "abc".toList codePattern = [] ∧
      messages codeChecks (regexWord ++ codePattern) "abc".toList =
        ["must match pattern \"^[a-z]\x7b2\"".toList] ∧
      messages codeChecks (oneofWord ++ "a,b|c".toList) "a,b".toList =
        ["must be one of [a]".toList] := by
  decide

end Gkit.Validation
