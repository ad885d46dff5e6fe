import BitcoinScript.Text.Blank

/-!
# Words between separators

Words that are joined by single separators are found again by cutting the text: while a word is
being read its characters are collected, and the separator behind it ends it. The words must not be
empty, and must not hold a separator themselves.
-/

namespace BitcoinScript.Text

section

variable {separates : Char → Bool} {separator : Char}

/-- The characters of a word are collected. -/
theorem splitWords_append {word : List Char} (h : ∀ c ∈ word, separates c = false)
    (current rest : List Char) :
    splitWords separates current (word ++ rest) =
      splitWords separates (word.reverse ++ current) rest := by
  induction word generalizing current with
  | nil => rfl
  | cons c word ih =>
      rw [List.forall_mem_cons] at h
      rw [List.cons_append, splitWords, if_neg (Bool.eq_false_iff.1 h.1), ih h.2,
        List.reverse_cons, List.append_assoc, List.singleton_append]

theorem splitWords_word {word : List Char} (hne : word ≠ [])
    (h : ∀ c ∈ word, separates c = false) : splitWords separates [] word = [word] := by
  have hcollected := splitWords_append h [] []
  rw [List.append_nil, List.append_nil] at hcollected
  rw [hcollected, splitWords, if_neg (mt List.reverse_eq_nil_iff.1 hne), List.reverse_reverse]

theorem splitWords_word_append {word : List Char} (hne : word ≠ [])
    (h : ∀ c ∈ word, separates c = false) (hseparator : separates separator = true)
    (rest : List Char) :
    splitWords separates [] (word ++ separator :: rest) =
      word :: splitWords separates [] rest := by
  rw [splitWords_append h, List.append_nil, splitWords, if_pos hseparator,
    if_neg (mt List.reverse_eq_nil_iff.1 hne), List.reverse_reverse]

theorem splitWords_intercalate {words : List (List Char)}
    (h : ∀ w ∈ words, w ≠ [] ∧ ∀ c ∈ w, separates c = false)
    (hseparator : separates separator = true) :
    splitWords separates [] ([separator].intercalate words) = words := by
  induction words with
  | nil => rfl
  | cons w words ih =>
      rw [List.forall_mem_cons] at h
      cases words with
      | nil => rw [List.intercalate_singleton, splitWords_word h.1.1 h.1.2]
      | cons next words =>
          rw [List.intercalate_cons_cons, List.append_assoc, List.singleton_append,
            splitWords_word_append h.1.1 h.1.2 hseparator, ih h.2]

end

/-- A text that is one word. -/
structure IsWord (s : String) : Prop where
  ne_nil : s.toList ≠ []
  not_blank : ∀ c ∈ s.toList, isBlank c = false

instance (s : String) : Decidable (IsWord s) :=
  decidable_of_iff (s.toList ≠ [] ∧ (s.toList.all fun c => !isBlank c) = true)
    ⟨fun h => ⟨h.1, fun c hc => (Bool.not_eq_true' _).mp (List.all_eq_true.1 h.2 c hc)⟩,
      fun h => ⟨h.1, List.all_eq_true.2 fun c hc => (Bool.not_eq_true' _).mpr (h.2 c hc)⟩⟩

theorem IsWord.append {s t : String} (hs : IsWord s) (ht : ∀ c ∈ t.toList, isBlank c = false) :
    IsWord (s ++ t) := by
  constructor
  · rw [String.toList_append]
    exact List.append_ne_nil_of_left_ne_nil hs.ne_nil t.toList
  · rw [String.toList_append]
    exact List.forall_mem_append.2 ⟨hs.not_blank, ht⟩

theorem isBlank_of_isDigit {c : Char} (h : c.isDigit) : isBlank c = false := by
  rw [Char.isDigit, Bool.and_eq_true, decide_eq_true_eq, decide_eq_true_eq] at h
  have hlow : 0x30 ≤ c.toNat := UInt32.le_iff_toNat_le.1 h.1
  have hhigh : c.toNat ≤ 0x39 := UInt32.le_iff_toNat_le.1 h.2
  have hne : ∀ n, ¬(0x30 ≤ n ∧ n ≤ 0x39) → c.toNat ≠ n := by
    rintro n hn rfl
    exact hn ⟨hlow, hhigh⟩
  simp [isBlank, hne]
  omega

theorem words_intercalate {ws : List String} (h : ∀ w ∈ ws, IsWord w) :
    words (String.intercalate " " ws) = ws := by
  have hspace : (" " : String).toList = [' '] := rfl
  have hwords : ∀ w ∈ ws.map String.toList, w ≠ [] ∧ ∀ c ∈ w, isBlank c = false := by
    intro w hw
    obtain ⟨s, hs, rfl⟩ := List.mem_map.1 hw
    exact ⟨(h s hs).ne_nil, (h s hs).not_blank⟩
  rw [words, String.toList_intercalate, hspace, splitWords_intercalate hwords (by decide),
    List.map_map]
  exact List.map_id'' (fun _ => String.ofList_toList) ws

end BitcoinScript.Text
