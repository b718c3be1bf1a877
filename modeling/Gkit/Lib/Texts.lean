import Mathlib

/-!
# Texts

Package `strings` on texts that are sequences of characters, and their bytes.
-/

namespace Gkit.Lib

abbrev Text := List Char

/-- A Go string, which need not be valid UTF-8. -/
abbrev Bytes := List UInt8

namespace Text

/-- The library's own instance under a name that does not depend on the imports: membership of
texts is decided with it, and a definition is to unfold to the same term in every module. -/
instance lawfulBEq : LawfulBEq Text := inferInstance

variable {α : Type}

/-- `strings.TrimFunc`. -/
def trimBy (p : α → Bool) (l : List α) : List α := (l.dropWhile p).rdropWhile p

/-- `unicode.IsSpace`. -/
def isSpace (c : Char) : Bool :=
  (9 ≤ c.toNat ∧ c.toNat ≤ 13) ∨ (0x2000 ≤ c.toNat ∧ c.toNat ≤ 0x200A) ∨
    c.toNat ∈ [0x20, 0x85, 0xA0, 0x1680, 0x2028, 0x2029, 0x202F, 0x205F, 0x3000]

/-- `strings.TrimSpace`. -/
def trimSpace (s : Text) : Text := trimBy isSpace s

/-- `strings.HasPrefix`. -/
def startsWith (s pre : Text) : Bool := pre.isPrefixOf s

/-- `strings.TrimPrefix`. -/
def withoutStart (s pre : Text) : Text := if s.startsWith pre then s.drop pre.length else s

/-- `strings.Cut` at a single character. -/
def cut (sep : Char) (s : Text) : Option (Text × Text) :=
  if sep ∈ s then some (s.takeWhile (· ≠ sep), (s.dropWhile (· ≠ sep)).tail) else none

/-- The encoding in UTF-8. -/
def bytes (s : Text) : Bytes := s.flatMap String.utf8EncodeChar

/-- The number of bytes in UTF-8. -/
def byteLength (s : Text) : ℕ := (s.map Char.utf8Size).sum

theorem cut_append {sep : Char} {k : Text} (h : sep ∉ k) (v : Text) :
    cut sep (k ++ sep :: v) = some (k, v) := by
  have hne : ∀ c ∈ k, decide (c ≠ sep) = true := by
    intro c hc
    simpa using ne_of_mem_of_not_mem hc h
  rw [cut, if_pos (by simp), List.takeWhile_append_of_pos hne, List.dropWhile_append_of_pos hne]
  simp

/-- Characters behind one that stays are dropped as if they were alone. -/
theorem rdropWhile_append {p : α → Bool} {c : α} (hc : p c = false) (w x : List α) :
    (w ++ c :: x).rdropWhile p = w ++ c :: x.rdropWhile p := by
  induction x using List.reverseRecOn with
  | nil => simp [hc]
  | append_singleton x d ih =>
      rw [← List.cons_append, ← List.append_assoc, List.rdropWhile_concat, List.rdropWhile_concat]
      split_ifs with hd
      · exact ih
      · simp

/-- Neither the first nor the last element satisfies the predicate. -/
def Trimmed (p : α → Bool) (l : List α) : Prop :=
  (∀ c ∈ l.head?, p c = false) ∧ ∀ c ∈ l.getLast?, p c = false

theorem dropWhile_eq_self_iff_head {p : α → Bool} {l : List α} :
    l.dropWhile p = l ↔ ∀ c ∈ l.head?, p c = false := by
  cases l with
  | nil => simp
  | cons c l =>
      cases hc : p c with
      | false => simp [hc]
      | true =>
          have hlt : (l.dropWhile p).length < (c :: l).length :=
            Nat.lt_succ_of_le (List.dropWhile_suffix p).length_le
          refine iff_of_false (fun heq => ?_) (by simp [hc])
          rw [List.dropWhile_cons_of_pos hc] at heq
          exact absurd (congrArg List.length heq) hlt.ne

theorem rdropWhile_eq_self_iff_last {p : α → Bool} {l : List α} :
    l.rdropWhile p = l ↔ ∀ c ∈ l.getLast?, p c = false := by
  rw [List.rdropWhile, List.reverse_eq_iff, dropWhile_eq_self_iff_head, List.head?_reverse]

theorem trimBy_eq_self_iff {p : α → Bool} {l : List α} : trimBy p l = l ↔ Trimmed p l := by
  rw [Trimmed, ← dropWhile_eq_self_iff_head, ← rdropWhile_eq_self_iff_last]
  constructor
  · intro h
    have hsuffix : l.dropWhile p <:+ l := List.dropWhile_suffix p
    have hpre : trimBy p l <+: l.dropWhile p := List.rdropWhile_prefix _ _
    rw [h] at hpre
    have hdrop := hsuffix.eq_of_length (le_antisymm hsuffix.length_le hpre.length_le)
    refine ⟨hdrop, ?_⟩
    rwa [trimBy, hdrop] at h
  · rintro ⟨hdrop, hrdrop⟩
    rw [trimBy, hdrop, hrdrop]

/-- What encloses a text is trimmed with it. -/
theorem trimBy_enclosed {p : α → Bool} {q : α} (hq : p q = true) (l : List α) :
    trimBy p (q :: (l ++ [q])) = trimBy p l := by
  rw [trimBy, List.dropWhile_cons_of_pos hq, List.dropWhile_append, trimBy]
  split_ifs with hall
  · rw [List.isEmpty_iff.mp hall, List.dropWhile_cons_of_pos hq]
    rfl
  · exact List.rdropWhile_concat_pos _ _ _ hq

end Text

end Gkit.Lib
