import Gkit.Lib.Texts

/-!
# Glob patterns

The patterns of Redis: `*` stands for any text, `?` for any byte, `[...]` for a
set of bytes, and a backslash takes the next byte literally.  A key is a sequence
of bytes, and a byte is written as the character with its code.
-/

namespace Gkit.Lib.Glob

/-- A part of a pattern. -/
inductive Part where
  | star
  | one
  | set (negated : Bool) (ranges : List (Char × Char))
  | lit (c : Char)
  deriving DecidableEq, Repr

mutual

/-- The parts of a pattern. -/
def parse : Text → List Part
  | [] => []
  | '*' :: p => .star :: parse p
  | '?' :: p => .one :: parse p
  | '[' :: '^' :: p => parseSet true [] p
  | '[' :: p => parseSet false [] p
  | '\\' :: c :: p => .lit c :: parse p
  | c :: p => .lit c :: parse p

/-- The rest of a set; one that is not closed ends with the pattern. -/
def parseSet (negated : Bool) (ranges : List (Char × Char)) : Text → List Part
  | [] => [.set negated ranges]
  | '\\' :: c :: p => parseSet negated ((c, c) :: ranges) p
  | ']' :: p => .set negated ranges :: parse p
  | a :: '-' :: b :: p => parseSet negated ((a, b) :: ranges) p
  | c :: p => parseSet negated ((c, c) :: ranges) p

end

/-- Whether a part other than a star takes a byte. -/
def Part.takes : Part → Char → Bool
  | .star, _ => false
  | .one, _ => true
  | .set negated ranges, c =>
      negated ^^ ranges.any fun r => min r.1.toNat r.2.toNat ≤ c.toNat ∧
        c.toNat ≤ max r.1.toNat r.2.toNat
  | .lit d, c => c = d

/-- Whether a text matches the parts. -/
def fits : List Part → Text → Bool
  | [], s => s.isEmpty
  | .star :: ps, s => s.tails.any (fits ps)
  | _ :: _, [] => false
  | p :: ps, c :: s => p.takes c && fits ps s

/-- The `MATCH` option of `SCAN`. -/
def isMatch (pattern s : Text) : Bool := fits (parse pattern) s

/-! ## Patterns that are a text and a star -/

/-- The characters that do not stand for themselves. -/
def isSpecial (c : Char) : Bool := c = '*' ∨ c = '?' ∨ c = '[' ∨ c = '\\'

theorem fits_star (ps : List Part) (s : Text) :
    fits (.star :: ps) s = true ↔ ∃ t, t <:+ s ∧ fits ps t = true := by
  simp [fits, List.mem_tails]

theorem fits_cons {p : Part} (hp : p ≠ .star) (ps : List Part) (s : Text) :
    fits (p :: ps) s = true ↔ ∃ c t, s = c :: t ∧ p.takes c = true ∧ fits ps t = true := by
  cases p with
  | star => exact absurd rfl hp
  | one | set | lit => cases s <;> simp [fits]

/-- A part of one character each. -/
def partOf (c : Char) : Part :=
  if c = '*' then .star else if c = '?' then .one else .lit c

theorem parse_cons {c : Char} (hset : c ≠ '[') (hescape : c ≠ '\\') (p : Text) :
    parse (c :: p) = partOf c :: parse p := by
  by_cases hstar : c = '*'
  · subst hstar
    rfl
  · by_cases hone : c = '?'
    · subst hone
      rfl
    · simp [parse, partOf, hset, hescape, hstar, hone]

/-- Sets and escapes take more than one character of the pattern for one part. -/
theorem length_parse_aux (n : ℕ) (p : Text) (hn : p.length ≤ n) :
    (parse p).length ≤ p.length ∧
      ∀ negated ranges, (parseSet negated ranges p).length ≤ max 1 p.length := by
  induction n generalizing p with
  | zero =>
      obtain rfl := List.length_eq_zero_iff.mp (Nat.le_zero.mp hn)
      exact ⟨le_rfl, fun _ _ => le_rfl⟩
  | succ n ih =>
      constructor
      · unfold parse
        split
        all_goals simp only [List.length_cons, List.length_nil] at hn ⊢
        case h_1 => exact le_rfl
        case h_4 p =>
            have hrest := (ih p (by omega)).2 true []
            omega
        case h_5 p _ =>
            have hrest := (ih p (by omega)).2 false []
            omega
        case h_6 c p =>
            have hrest := (ih p (by omega)).1
            omega
        all_goals
          have hrest := (ih _ (Nat.le_of_succ_le_succ hn)).1
          omega
      · intro negated ranges
        unfold parseSet
        split
        all_goals simp only [List.length_cons, List.length_nil] at hn ⊢
        case h_1 => exact le_max_left 1 0
        case h_2 c p =>
            have hrest := (ih p (by omega)).2 negated ((c, c) :: ranges)
            omega
        case h_3 p =>
            have hrest := (ih p (by omega)).1
            omega
        case h_4 a b p _ _ =>
            have hrest := (ih p (by omega)).2 negated ((a, b) :: ranges)
            omega
        case h_5 c p _ _ _ =>
            have hrest := (ih p (by omega)).2 negated ((c, c) :: ranges)
            omega

theorem length_parse_le (p : Text) : (parse p).length ≤ p.length :=
  (length_parse_aux p.length p le_rfl).1

theorem length_parse_lt {c : Char} (hc : c = '[' ∨ c = '\\') {p : Text} (hp : p ≠ []) :
    (parse (c :: p)).length < (c :: p).length := by
  have hset := fun q negated => (length_parse_aux (q : Text).length q le_rfl).2 negated []
  obtain ⟨d, q, rfl⟩ := List.exists_cons_of_ne_nil hp
  rcases hc with rfl | rfl
  · by_cases hd : d = '^'
    · subst hd
      have hrest := hset q true
      simp only [parse, List.length_cons]
      omega
    · have hparse : parse ('[' :: d :: q) = parseSet false [] (d :: q) := by simp [parse, hd]
      have hrest := hset (d :: q) false
      rw [hparse]
      simp only [List.length_cons] at hrest ⊢
      omega
  · have hrest := length_parse_le q
    simp only [parse, List.length_cons]
    omega

/-- A text that, with a star behind it, has as many parts as characters. -/
theorem parse_eq_of_length {pre : Text}
    (h : (parse (pre ++ ['*'])).length = pre.length + 1) :
    (∀ c ∈ pre, c ≠ '[' ∧ c ≠ '\\') ∧ parse (pre ++ ['*']) = pre.map partOf ++ [.star] := by
  induction pre with
  | nil => exact ⟨by simp, rfl⟩
  | cons c pre ih =>
      have hplain : ¬(c = '[' ∨ c = '\\') := by
        intro hc
        have hlt :=
          length_parse_lt hc (List.append_ne_nil_of_right_ne_nil pre (by simp : ['*'] ≠ []))
        simp only [List.cons_append] at h
        simp only [h, List.length_cons, List.length_append, List.length_nil] at hlt
        omega
      obtain ⟨hset, hescape⟩ := not_or.mp hplain
      rw [List.cons_append, parse_cons hset hescape] at h ⊢
      obtain ⟨hpre, hparse⟩ := ih (Nat.succ.inj h)
      refine ⟨?_, by rw [hparse]; rfl⟩
      simpa using ⟨⟨hset, hescape⟩, hpre⟩

theorem parse_literal {pre : Text} (h : ∀ c ∈ pre, isSpecial c = false) :
    parse (pre ++ ['*']) = pre.map .lit ++ [.star] := by
  induction pre with
  | nil => rfl
  | cons c pre ih =>
      have hc : c ≠ '*' ∧ c ≠ '?' ∧ c ≠ '[' ∧ c ≠ '\\' := by
        simpa [isSpecial] using h c List.mem_cons_self
      obtain ⟨hstar, hone, hset, hescape⟩ := hc
      rw [List.cons_append, parse_cons hset hescape, ih fun d hd => h d (List.mem_cons_of_mem _ hd)]
      simp [partOf, hstar, hone]

theorem fits_literal (pre s : Text) : fits (pre.map .lit ++ [.star]) s = true ↔ pre <+: s := by
  induction pre generalizing s with
  | nil =>
      rw [List.map_nil, List.nil_append, fits_star]
      exact ⟨fun _ => List.nil_prefix, fun _ => ⟨[], List.nil_suffix, rfl⟩⟩
  | cons c pre ih =>
      rw [List.map_cons, List.cons_append, fits_cons (by simp)]
      constructor
      · rintro ⟨d, t, rfl, htakes, hfits⟩
        obtain rfl : d = c := by simpa [Part.takes] using htakes
        exact (List.prefix_cons_inj d).mpr ((ih t).mp hfits)
      · intro hpre
        obtain ⟨t, rfl⟩ := hpre
        exact ⟨c, pre ++ t, rfl, by simp [Part.takes], (ih _).mpr (List.prefix_append pre t)⟩

/-- Parts without a star match texts of one length only. -/
theorem length_eq_of_fits {ps : List Part} (hps : .star ∉ ps) {s : Text} (h : fits ps s = true) :
    s.length = ps.length := by
  induction ps generalizing s with
  | nil => simpa [fits] using h
  | cons p ps ih =>
      obtain ⟨hp, hps⟩ := not_or.mp (List.mem_cons.not.mp hps)
      obtain ⟨c, t, rfl, -, hfits⟩ := (fits_cons (Ne.symm hp) ps s).mp h
      rw [List.length_cons, ih hps hfits, List.length_cons]

/-- A match can be cut down to one character for each part that is not a star. -/
theorem exists_fits_short {ps : List Part} {s : Text} (h : fits ps s = true) :
    ∃ t, fits ps t = true ∧ t.length = ps.countP (· ≠ .star) := by
  induction ps generalizing s with
  | nil => exact ⟨[], rfl, rfl⟩
  | cons p ps ih =>
      by_cases hp : p = .star
      · subst hp
        obtain ⟨t, -, hfits⟩ := (fits_star ps s).mp h
        obtain ⟨t', hfits', hlength⟩ := ih hfits
        exact ⟨t', (fits_star ps t').mpr ⟨t', List.suffix_rfl, hfits'⟩, by simpa using hlength⟩
      · obtain ⟨c, t, rfl, htakes, hfits⟩ := (fits_cons hp ps s).mp h
        obtain ⟨t', hfits', hlength⟩ := ih hfits
        refine ⟨c :: t', (fits_cons hp ps _).mpr ⟨c, t', rfl, htakes, hfits'⟩, ?_⟩
        simp [hp, hlength]

/-- Where the pattern takes any byte, one byte may replace another. -/
theorem fits_replace {ps qs : List Part} (hps : .star ∉ ps) {a b : Text}
    (hlength : a.length = ps.length) {c : Char} (d : Char)
    (h : fits (ps ++ .one :: qs) (a ++ c :: b) = true) :
    fits (ps ++ .one :: qs) (a ++ d :: b) = true := by
  induction ps generalizing a with
  | nil =>
      obtain rfl := List.length_eq_zero_iff.mp hlength
      simpa [fits, Part.takes] using h
  | cons p ps ih =>
      obtain ⟨hp, hps⟩ := not_or.mp (List.mem_cons.not.mp hps)
      obtain ⟨e, a, rfl⟩ := List.exists_cons_of_length_eq_add_one hlength
      obtain ⟨e', t, heq, htakes, hfits⟩ := (fits_cons (Ne.symm hp) _ _).mp h
      obtain ⟨rfl, rfl⟩ := List.cons.inj heq
      exact (fits_cons (Ne.symm hp) _ _).mpr
        ⟨e, _, rfl, htakes, ih hps (Nat.succ.inj hlength) hfits⟩

section Exact

variable {pre : Text} (hexact : ∀ s, isMatch (pre ++ ['*']) s = true ↔ pre <+: s)

include hexact

/-- Texts of two lengths match. -/
theorem star_mem_of_exact : .star ∈ parse (pre ++ ['*']) := by
  have hpre : fits (parse (pre ++ ['*'])) pre = true := (hexact pre).mpr List.prefix_rfl
  have hlong : fits (parse (pre ++ ['*'])) (pre ++ ['x']) = true :=
    (hexact _).mpr (List.prefix_append _ _)
  by_contra hnone
  have hlength := (length_eq_of_fits hnone hlong).trans (length_eq_of_fits hnone hpre).symm
  simp at hlength

/-- The shortest text that matches begins with `pre`, so there is a part for each
character of `pre`, and one star behind them. -/
theorem length_of_exact : (parse (pre ++ ['*'])).length = pre.length + 1 ∧
    (parse (pre ++ ['*'])).countP (· = .star) = 1 := by
  obtain ⟨t, hfits, hshort⟩ := exists_fits_short ((hexact pre).mpr List.prefix_rfl)
  have hle : pre.length ≤ t.length := ((hexact t).mp hfits).length_le
  have hstars : 0 < (parse (pre ++ ['*'])).countP (· = .star) :=
    List.countP_pos_iff.mpr ⟨.star, star_mem_of_exact hexact, by simp⟩
  have hcount : (parse (pre ++ ['*'])).length =
      (parse (pre ++ ['*'])).countP (· = .star) + (parse (pre ++ ['*'])).countP (· ≠ .star) := by
    simpa using List.length_eq_countP_add_countP (p := fun p => decide (p = Part.star))
  have hbound : (parse (pre ++ ['*'])).length ≤ pre.length + 1 := by
    simpa using length_parse_le (pre ++ ['*'])
  omega

theorem star_notMem_of_exact (hparse : parse (pre ++ ['*']) = pre.map partOf ++ [.star]) :
    .star ∉ pre.map partOf := by
  have hone := (length_of_exact hexact).2
  rw [hparse, List.countP_append] at hone
  have hzero : (pre.map partOf).countP (· = .star) = 0 := by simpa using hone
  intro hmem
  exact absurd hzero (List.countP_pos_iff.mpr ⟨.star, hmem, by simp⟩).ne'

/-- Another text would match where `pre` has a question mark. -/
theorem one_notMem_of_exact (hparse : parse (pre ++ ['*']) = pre.map partOf ++ [.star]) :
    '?' ∉ pre := by
  intro hmem
  have hnostar := star_notMem_of_exact hexact hparse
  have hpre : fits (parse (pre ++ ['*'])) pre = true := (hexact pre).mpr List.prefix_rfl
  obtain ⟨u, w, rfl⟩ := List.append_of_mem hmem
  have hsplit : parse (u ++ '?' :: w ++ ['*']) =
      u.map partOf ++ .one :: (w.map partOf ++ [.star]) := by
    rw [hparse, List.map_append, List.append_assoc]
    rfl
  have hu : .star ∉ u.map partOf := fun hmem => hnostar (by simp [hmem])
  rw [hsplit] at hpre
  have hother := fits_replace hu (List.length_map _).symm 'x' hpre
  rw [← hsplit] at hother
  have heq := ((hexact _).mp hother).eq_of_length (by simp)
  simp at heq

end Exact

/-- A text with a star behind it matches what begins with the text, exactly if the
text has no special character. -/
theorem isMatch_star_iff (pre : Text) :
    (∀ s, isMatch (pre ++ ['*']) s = true ↔ pre <+: s) ↔ ∀ c ∈ pre, isSpecial c = false := by
  constructor
  · intro hexact c hc
    obtain ⟨hplain, hparse⟩ := parse_eq_of_length (length_of_exact hexact).1
    obtain ⟨hset, hescape⟩ := hplain c hc
    have hstar : c ≠ '*' := by
      rintro rfl
      exact star_notMem_of_exact hexact hparse (List.mem_map.mpr ⟨'*', hc, rfl⟩)
    have hone : c ≠ '?' := by
      rintro rfl
      exact one_notMem_of_exact hexact hparse hc
    simp [isSpecial, hset, hescape, hstar, hone]
  · intro hpre s
    rw [isMatch, parse_literal hpre, fits_literal]

end Gkit.Lib.Glob
